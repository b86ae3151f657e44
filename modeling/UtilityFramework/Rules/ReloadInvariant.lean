import UtilityFramework.Rules.RuleRecords

/-!
# The invariant of the rules dispatcher

Dropping the rules leaves nothing of them, since all they have subscribed is recorded, and
subscribing rules where nothing of rules is left records all again. The invariant
(`RulesDispatcher.Inv`) says that subscriptions and timers belong to the rules that are loaded,
and are recorded.
-/

namespace UtilityFramework

open Transition

namespace RulesDispatcher

variable {ρ : Type*} [DecidableEq ρ] {s t u : RulesDispatcher ρ}

/-! ### Dropping rules -/

/-- Nothing is recorded for a rule any more. -/
def Dropped (s : RulesDispatcher ρ) (rule : Rule) : Prop :=
  (∀ trigger, trigger ∉ s.triggerTokens rule.id) ∧
    (rule.id ∉ s.enableTokens ∨ s.ruleEnabledMap rule.id = none)

omit [DecidableEq ρ] in
theorem Dropped.shrinks {rule : Rule} (h : s.Dropped rule) (ht : s.Shrinks t) :
    t.Dropped rule := by
  refine ⟨fun trigger hmem => h.1 trigger (ht.triggers rule.id trigger hmem), ?_⟩
  rw [ht.enabled]
  exact h.2.imp_left fun hid hmem => hid (ht.enables rule.id hmem)

/-- The tokens recorded for the triggers of a rule are those that unsubscribing it uses. -/
def Droppable (s : RulesDispatcher ρ) (rule : Rule) : Prop :=
  ∀ trigger ∈ s.triggerTokens rule.id,
    trigger ∈ s.reached rule ∧ s.table.byString trigger = s.subscribedAt rule.id trigger

omit [DecidableEq ρ] in
theorem Droppable.shrinks {rule : Rule} (h : s.Droppable rule) (ht : s.Shrinks t) :
    t.Droppable rule := by
  intro trigger hmem
  rw [reached, ht.table, ht.subscribedAt]
  exact h trigger (ht.triggers rule.id trigger hmem)

theorem Subscribed.setTimers (h : s.Subscribed) (timers : TaskTimers) :
    ({ s with timers := timers } : RulesDispatcher ρ).Subscribed :=
  ⟨h.registered, h.loaded, h.known,
    fun hd => ⟨(h.covered hd).trigger, (h.covered hd).enable⟩⟩

/-- The body of the loop of a reload. -/
theorem Subscribed.dropRule (h : s.Subscribed) (hentered : s.timers.Entered)
    (hd : Distinct s.rules) {rule : Rule} (hrule : rule ∈ s.rules) (hat : s.Droppable rule) :
    ∃ t, s.dropRule rule.id = some t ∧ t.Subscribed ∧ s.Shrinks t ∧ t.timers.Entered ∧
      (∀ timer ∈ t.timers.timers, timer ∈ s.timers.timers ∧ timer.ruleId ≠ rule.id) ∧
      t.Dropped rule := by
  obtain ⟨t, ok, ht, hsub, hshrinks, htimers, hgone⟩ :=
    h.unsubscribeRuleTriggers fun _ other hother hid trigger _ hmem => by
      obtain rfl := List.inj_on_of_nodup_map hd.1 hother hrule hid
      exact (hat trigger hmem).2
  -- all that have a token are reached, and lose it
  have hnone : ∀ trigger, trigger ∉ t.triggerTokens rule.id := fun trigger hmem =>
    hgone rule (queryRuleById_of_distinct hd hrule) trigger
      (hat trigger (hshrinks.triggers rule.id trigger hmem)).1 hmem
  -- the timers change nothing about the subscriptions
  have hmiddle : t.Shrinks (t.unsubscribeRuleTasksTimers rule.id) :=
    ⟨rfl, rfl, rfl, rfl, rfl, rfl, .refl _, fun _ _ hmem => hmem, fun _ hmem => hmem⟩
  have hloaded : rule ∈ t.rules := hshrinks.rules ▸ hrule
  obtain ⟨u, hu, husub, hushrinks, hutimers, huenable⟩ :=
    (hsub.setTimers (t.timers.unsubscribeRuleTasksTimers rule.id).1).unsubscribeRuleEnable
      (hshrinks.rules ▸ hd) hloaded
  obtain ⟨huentered, hleft⟩ := hentered.unsubscribe rule.id
  have htimersEq : u.timers = (s.timers.unsubscribeRuleTasksTimers rule.id).1 := by
    rw [hutimers, ← htimers]
  refine ⟨u, ?_, husub, hshrinks.trans (hmiddle.trans hushrinks), htimersEq ▸ huentered,
    htimersEq ▸ hleft, fun trigger hmem => hnone trigger (hushrinks.triggers _ _ hmem), huenable⟩
  rw [RulesDispatcher.dropRule, ht, Option.bind_some]
  exact hu

/-- The loop of a reload. -/
theorem Subscribed.dropRules (h : s.Subscribed) (hentered : s.timers.Entered)
    (hd : Distinct s.rules) {rules : List Rule} (hrules : ∀ rule ∈ rules, rule ∈ s.rules)
    (hat : ∀ rule ∈ rules, s.Droppable rule) :
    ∃ t, s.dropRules rules = some t ∧ t.Subscribed ∧ s.Shrinks t ∧
      (∀ timer ∈ t.timers.timers, timer ∈ s.timers.timers ∧
        ∀ rule ∈ rules, timer.ruleId ≠ rule.id) ∧
      ∀ rule ∈ rules, t.Dropped rule := by
  induction rules generalizing s with
  | nil =>
    exact ⟨s, rfl, h, Shrinks.refl s,
      fun timer htimer => ⟨htimer, fun _ hrule => absurd hrule List.not_mem_nil⟩,
      fun _ hrule => absurd hrule List.not_mem_nil⟩
  | cons rule rules ih =>
    obtain ⟨t, ht, hsub, hshrinks, htentered, htimers, hdropped⟩ :=
      h.dropRule hentered hd (hrules rule List.mem_cons_self) (hat rule List.mem_cons_self)
    obtain ⟨u, hu, husub, hushrinks, hutimers, hudropped⟩ := ih hsub htentered
      (hshrinks.rules ▸ hd)
      (fun other hother => hshrinks.rules ▸ hrules other (List.mem_cons_of_mem _ hother))
      fun other hother => (hat other (List.mem_cons_of_mem _ hother)).shrinks hshrinks
    refine ⟨u, by rw [RulesDispatcher.dropRules, ht, Option.bind_some, hu], husub,
      hshrinks.trans hushrinks, fun timer htimer => ?_, fun other hother => ?_⟩
    · obtain ⟨hmem, hothers⟩ := hutimers timer htimer
      obtain ⟨hold, hne⟩ := htimers timer hmem
      refine ⟨hold, fun other hother => ?_⟩
      rcases List.mem_cons.mp hother with rfl | hother
      · exact hne
      · exact hothers other hother
    · rcases List.mem_cons.mp hother with rfl | hother
      · exact hdropped.shrinks hushrinks
      · exact hudropped other hother

/-- No function of a rule is subscribed when all rules are dropped. -/
theorem Subscribed.others_of_dropped (h : s.Subscribed) (hd : Distinct s.rules)
    (hdropped : ∀ rule ∈ s.rules, s.Dropped rule) :
    ∀ l ∈ s.subscriptions.live, l.func.ofRule = false := by
  intro l hl
  cases hfunc : l.func with
  | trigger object =>
    obtain ⟨rule, hrule, -, trigger, hlookup, -⟩ := (h.covered hd).trigger l hl object hfunc
    exact absurd (AList.lookup_isSome.mp (Option.isSome_of_eq_some hlookup))
      ((hdropped rule hrule).1 trigger)
  | enable object =>
    obtain ⟨rule, hrule, -, hlookup, hrow⟩ := (h.covered hd).enable l hl object hfunc
    rcases (hdropped rule hrule).2 with hid | hnone
    · exact absurd (AList.lookup_isSome.mp (Option.isSome_of_eq_some hlookup)) hid
    · cases hrow.symm.trans hnone
  | other id => rfl

/-! ### Subscribing all rules -/

theorem Subscribed.of_others (hreg : s.subscriptions.Registered)
    (hlive : ∀ l ∈ s.subscriptions.live, l.func.ofRule = false)
    (hids : ∀ id, id ∉ s.enableTokens) : s.Subscribed where
  registered := hreg
  loaded l hl hfunc := by cases (hlive l hl).symm.trans hfunc
  known id hid := absurd hid (hids id)
  covered _ := by
    constructor
    · intro l hl object hfunc
      have hother := hlive l hl
      rw [hfunc] at hother
      cases hother
    · intro l hl object hfunc
      have hother := hlive l hl
      rw [hfunc] at hother
      cases hother

theorem Subscribed.subscribeAllRulesTriggers (h : s.Subscribed) (rules : List Rule) :
    ∃ t, s.subscribeAllRulesTriggers rules = some t ∧ t.Subscribed ∧ s.Frame t ∧
      t.enableTokens = s.enableTokens := by
  induction rules generalizing s with
  | nil => exact ⟨s, rfl, h, Frame.refl s, rfl⟩
  | cons rule rules ih =>
    obtain ⟨t, ok, ht, hsub, hframe, hids⟩ := h.subscribeRuleTriggers rule.id
    obtain ⟨u, hu, husub, huframe, huids⟩ := ih hsub
    refine ⟨u, ?_, husub, hframe.trans huframe, huids.trans hids⟩
    rw [RulesDispatcher.subscribeAllRulesTriggers, ht, Option.bind_some, hu]

theorem Subscribed.subscribeAllRulesEnable (h : s.Subscribed) {rules : List Rule}
    (hrules : ∀ rule ∈ rules, rule ∈ s.rules)
    (hnodup : Distinct s.rules → (rules.map fun rule => rule.id).Nodup)
    (hnew : Distinct s.rules → ∀ rule ∈ rules, rule.id ∉ s.enableTokens) :
    ∃ t, s.subscribeAllRulesEnable rules = some t ∧ t.Subscribed ∧ s.Frame t := by
  induction rules generalizing s with
  | nil => exact ⟨s, rfl, h, Frame.refl s⟩
  | cons rule rules ih =>
    obtain ⟨t, ht, hsub, hframe, hids⟩ :=
      h.subscribeRuleEnabled (hrules rule List.mem_cons_self)
        fun hd => hnew hd rule List.mem_cons_self
    -- the ids of the rules that are still to come have no token yet
    obtain ⟨u, hu, husub, huframe⟩ := ih hsub
      (fun other hother => hframe.rules ▸ hrules other (List.mem_cons_of_mem _ hother))
      (fun hd => (List.nodup_cons.mp (hnodup (hframe.rules ▸ hd))).2)
      fun hd other hother hmem => by
        rw [hframe.rules] at hd
        rcases hids other.id hmem with heq | hold
        · refine (List.nodup_cons.mp (hnodup hd)).1 ?_
          exact List.mem_map.mpr ⟨other, hother, heq⟩
        · exact hnew hd other (List.mem_cons_of_mem _ hother) hold
    refine ⟨u, ?_, husub, hframe.trans huframe⟩
    rw [RulesDispatcher.subscribeAllRulesEnable, ht, Option.bind_some, hu]

/-- What starting and reloading do with the rules, when no enable row is subscribed yet. -/
theorem Subscribed.subscribeAllRules (h : s.Subscribed) (hids : ∀ id, id ∉ s.enableTokens) :
    ∃ t, s.subscribeAllRules = some t ∧ t.Subscribed ∧ s.Frame t := by
  obtain ⟨t, ht, hsub, hframe, htids⟩ := h.subscribeAllRulesTriggers s.rules
  obtain ⟨u, hu, husub, huframe⟩ := hsub.subscribeAllRulesEnable (fun rule hrule => hrule)
    (fun hd => hd.1) fun _ rule _ hmem => hids rule.id (htids ▸ hmem)
  refine ⟨u, ?_, husub, hframe.trans huframe⟩
  rw [RulesDispatcher.subscribeAllRules, ht, Option.bind_some, hu]

/-! ### The invariant -/

/-- Subscriptions and timers belong to the rules that are loaded, and are recorded. -/
structure Inv (s : RulesDispatcher ρ) : Prop where
  subscribed : s.Subscribed
  entered : s.timers.Entered
  timers : ∀ timer ∈ s.timers.timers, ∃ rule ∈ s.rules, rule.id = timer.ruleId
  objects : ∀ rule ∈ s.rules, rule.object < s.created

theorem Inv.frame (h : s.Inv) (ht : t.Subscribed) (hframe : s.Frame t) : t.Inv where
  subscribed := ht
  entered := by rw [hframe.timers]; exact h.entered
  timers := by rw [hframe.timers, hframe.rules]; exact h.timers
  objects := by rw [hframe.rules, hframe.created]; exact h.objects

theorem Inv.evaluate (h : s.Inv) {rule : Rule} (hrule : rule ∈ s.rules) (result : Bool) :
    (s.evaluate rule result).Inv := by
  obtain ⟨hentered, hfrom⟩ := h.entered.evaluate rule.toTimedRule result
  refine ⟨h.subscribed.setTimers _, hentered, fun timer htimer => ?_, h.objects⟩
  rcases hfrom timer htimer with hold | hid
  · exact h.timers timer hold
  · exact ⟨rule, hrule, hid.symm⟩

theorem mem_parseRules {first : ℕ} {rules : List RuleData} {rule : Rule}
    (h : rule ∈ parseRules first rules) :
    rule.toRuleData ∈ rules ∧ first ≤ rule.object ∧ rule.object < first + rules.length := by
  obtain ⟨⟨data, object⟩, hmem, rfl⟩ := List.mem_map.mp h
  obtain ⟨hfirst, hlast, hdata⟩ := List.mem_zipIdx hmem
  exact ⟨hdata ▸ List.getElem_mem _, hfirst, hlast⟩

/-- The rules are subscribed when nothing of rules is subscribed and no timer is left. -/
theorem inv_load (hreg : s.subscriptions.Registered)
    (hlive : ∀ l ∈ s.subscriptions.live, l.func.ofRule = false)
    (hids : ∀ id, id ∉ s.enableTokens) (htimers : s.timers.timers = [])
    (hobjects : ∀ rule ∈ s.rules, rule.object < s.created) :
    ∃ t, s.subscribeAllRules = some t ∧ t.Inv ∧ s.Frame t := by
  have hsub := Subscribed.of_others hreg hlive hids
  obtain ⟨t, ht, htsub, hframe⟩ := hsub.subscribeAllRules hids
  have hinv : s.Inv := by
    refine ⟨hsub, fun timer htimer => ?_, fun timer htimer => ?_, hobjects⟩
    · rw [htimers] at htimer
      exact absurd htimer List.not_mem_nil
    · rw [htimers] at htimer
      exact absurd htimer List.not_mem_nil
  exact ⟨t, ht, hinv.frame htsub hframe, hframe⟩

/-! ### The rows of rules -/

omit [DecidableEq ρ] in
/-- What is entered for a rule stays. -/
theorem emplaceRow_of_some {rows : ℕ → Option ρ} {id : ℕ} {row : ρ} (h : rows id = some row)
    (ruleId : ℕ) (row' : ρ) : emplaceRow rows ruleId row' id = some row := by
  rw [emplaceRow]
  split
  · exact h
  · rename_i hnone
    rw [Function.update_of_ne, h]
    rintro rfl
    exact hnone (Option.isSome_of_eq_some h)

omit [DecidableEq ρ] in
theorem addRuleEnableRow_eq (s : RulesDispatcher ρ) (ruleId : ℕ) (name : String) :
    ∃ enabled, (s.addRuleEnableRow ruleId name).1 = { s with ruleEnabledMap := enabled } ∧
      ∀ id row, s.ruleEnabledMap id = some row → enabled id = some row := by
  rw [addRuleEnableRow]
  split
  · exact ⟨_, rfl, fun _ _ h => h⟩
  · exact ⟨_, rfl, fun _ _ h => emplaceRow_of_some h _ _⟩

omit [DecidableEq ρ] in
theorem addRuleExistenceRow_eq (s : RulesDispatcher ρ) (ruleId : ℕ) (name : String) :
    ∃ existence,
      (s.addRuleExistenceRow ruleId name).1 = { s with ruleExistenceMap := existence } := by
  rw [addRuleExistenceRow]
  split <;> exact ⟨_, rfl⟩

omit [DecidableEq ρ] in
/-- The rows of a rule are entered. -/
theorem enterRows_eq (s : RulesDispatcher ρ) (ruleId : ℕ) (name : String) :
    ∃ enabled existence,
      ((s.addRuleEnableRow ruleId name).1.addRuleExistenceRow ruleId name).1 =
        { s with ruleEnabledMap := enabled, ruleExistenceMap := existence } ∧
      ∀ id row, s.ruleEnabledMap id = some row → enabled id = some row := by
  obtain ⟨enabled, henabled, hkeep⟩ := s.addRuleEnableRow_eq ruleId name
  obtain ⟨existence, hexistence⟩ :=
    (s.addRuleEnableRow ruleId name).1.addRuleExistenceRow_eq ruleId name
  exact ⟨enabled, existence, by rw [hexistence, henabled], hkeep⟩

omit [DecidableEq ρ] in
/-- `create_rules_mechanism` only enters rows. -/
theorem addRuleRows_eq {rules : List Rule} (h : s.addRuleRows rules = some t) :
    ∃ enabled existence,
      t = { s with ruleEnabledMap := enabled, ruleExistenceMap := existence } := by
  induction rules generalizing s with
  | nil => exact ⟨_, _, (Option.some.inj h).symm⟩
  | cons rule rules ih =>
    rw [addRuleRows] at h
    split at h
    · obtain ⟨enabled, existence, hrows, -⟩ := s.enterRows_eq rule.id rule.name
      obtain ⟨enabled', existence', rfl⟩ := ih h
      exact ⟨enabled', existence', by rw [hrows]⟩
    · cases h

/-- A dispatcher that has been started meets the invariant. -/
theorem inv_startUp {table : RuleRows ρ} {first : ℕ} {rules : List RuleData}
    (h : startUp table first rules = some s) : s.Inv := by
  obtain ⟨t, ht, hs⟩ := Option.bind_eq_some_iff.mp h
  obtain ⟨enabled, existence, rfl⟩ := addRuleRows_eq ht
  obtain ⟨u, hu, huinv, -⟩ := inv_load
    (s := { (fresh table first).setRules rules with
      ruleEnabledMap := enabled, ruleExistenceMap := existence })
    SubscriptionState.registered_init (fun l hl => absurd hl List.not_mem_nil)
    (fun id hid => AList.notMem_empty id hid) rfl fun rule hrule => (mem_parseRules hrule).2.2
  rw [hu] at hs
  exact Option.some.inj hs ▸ huinv

/-! ### One step -/

/-- More rules, and more enable rows. -/
theorem Subscribed.extend (h : s.Subscribed) {rules : List Rule} {created : ℕ}
    {enabled existence : ℕ → Option ρ} (hrules : ∀ rule ∈ s.rules, rule ∈ rules)
    (hdistinct : Distinct rules → Distinct s.rules)
    (hrows : ∀ id row, s.ruleEnabledMap id = some row → enabled id = some row) :
    ({ s with
      rules := rules
      created := created
      ruleEnabledMap := enabled
      ruleExistenceMap := existence } : RulesDispatcher ρ).Subscribed := by
  refine ⟨h.registered, fun l hl hfunc => ?_, fun id hid => ?_, fun hd =>
    ⟨fun l hl object hfunc => ?_, fun l hl object hfunc => ?_⟩⟩
  · obtain ⟨rule, hrule, hof⟩ := h.loaded l hl hfunc
    exact ⟨rule, hrules rule hrule, hof⟩
  · obtain ⟨rule, hrule, hof⟩ := h.known id hid
    exact ⟨rule, hrules rule hrule, hof⟩
  · obtain ⟨rule, hrule, hof⟩ := (h.covered (hdistinct hd)).trigger l hl object hfunc
    exact ⟨rule, hrules rule hrule, hof⟩
  · obtain ⟨rule, hrule, hobject, hlookup, hrow⟩ :=
      (h.covered (hdistinct hd)).enable l hl object hfunc
    exact ⟨rule, hrules rule hrule, hobject, hlookup, hrows _ _ hrow⟩

theorem Distinct.of_append {rules rules' : List Rule} (h : Distinct (rules ++ rules')) :
    Distinct rules := by
  refine ⟨?_, fun rule hrule => h.2 rule (List.mem_append_left _ hrule)⟩
  have hids := h.1
  rw [List.map_append] at hids
  exact hids.of_append_left

/-- A rule is appended to the vector, and its rows are entered. -/
theorem Inv.append (h : s.Inv) (data : RuleData) (existence : ℕ → Option ρ)
    {enabled : ℕ → Option ρ}
    (hrows : ∀ id row, s.ruleEnabledMap id = some row → enabled id = some row) :
    ({ s with
      rules := s.rules ++ [⟨data, s.created⟩]
      created := s.created + 1
      ruleEnabledMap := enabled
      ruleExistenceMap := existence } : RulesDispatcher ρ).Inv := by
  refine ⟨h.subscribed.extend (fun _ hmem => List.mem_append_left _ hmem) Distinct.of_append hrows,
    h.entered, fun timer htimer => ?_, fun rule hrule => ?_⟩
  · obtain ⟨owner, howner, hid⟩ := h.timers timer htimer
    exact ⟨owner, List.mem_append_left _ howner, hid⟩
  · rcases List.mem_append.mp hrule with hold | hnew
    · exact (h.objects rule hold).trans (Nat.lt_succ_self _)
    · obtain rfl := List.mem_singleton.mp hnew
      exact Nat.lt_succ_self _

/-- A rule is added. -/
theorem Inv.addRule (h : s.Inv) {data : RuleData} (ht : s.addRule data = some t) : t.Inv := by
  rw [RulesDispatcher.addRule] at ht
  dsimp only at ht
  obtain ⟨enabled, existence, hentered, hrows⟩ := enterRows_eq
    { s with rules := s.rules ++ [⟨data, s.created⟩], created := s.created + 1 } data.id data.name
  rw [hentered] at ht
  have hinv := h.append data existence hrows
  obtain ⟨u, ok, hu, husub, huframe, huids⟩ := hinv.subscribed.subscribeRuleTriggers data.id
  have huinv : u.Inv := hinv.frame husub huframe
  rw [hu, Option.bind_some] at ht
  dsimp only at ht
  cases hquery : u.queryRuleById data.id with
  | none =>
    rw [hquery] at ht
    exact Option.some.inj ht ▸ huinv
  | some first =>
    rw [hquery] at ht
    obtain ⟨hfirst, hid⟩ := queryRuleById_eq_some hquery
    obtain ⟨v, hv, hvsub, hvframe, -⟩ := husub.subscribeRuleEnabled hfirst fun hd hmem => by
      -- the id is none of those before
      rw [huids] at hmem
      obtain ⟨other, hother, hotherId⟩ := h.subscribed.known _ hmem
      rw [huframe.rules] at hd
      have hids := hd.1
      rw [List.map_append, List.nodup_append] at hids
      exact hids.2.2 other.id (List.mem_map_of_mem hother) data.id
        (List.mem_singleton.mpr rfl) (hotherId.trans hid)
    exact Option.some.inj (hv.symm.trans ht) ▸ huinv.frame hvsub hvframe

/-- What a reload leaves before it parses the file. -/
theorem Inv.dropRules (h : s.Inv) (hd : Distinct s.rules)
    (hat : ∀ rule ∈ s.rules, s.Droppable rule) :
    ∃ t, s.dropRules s.rules = some t ∧ t.subscriptions.Registered ∧ s.Shrinks t ∧
      (∀ l ∈ t.subscriptions.live, l.func.ofRule = false) ∧ t.timers.timers = [] := by
  obtain ⟨t, ht, hsub, hshrinks, htimers, hdropped⟩ :=
    h.subscribed.dropRules h.entered hd (fun _ hrule => hrule) hat
  refine ⟨t, ht, hsub.registered, hshrinks, ?_, ?_⟩
  · refine hsub.others_of_dropped (hshrinks.rules ▸ hd) ?_
    rw [hshrinks.rules]
    exact hdropped
  · refine List.eq_nil_iff_forall_not_mem.mpr fun timer htimer => ?_
    obtain ⟨hold, hne⟩ := htimers timer htimer
    obtain ⟨rule, hrule, hid⟩ := h.timers timer hold
    exact hne rule hrule hid.symm

/-- A reload goes through, and drops the subscriptions and timers of the old rules. -/
theorem Inv.reload (h : s.Inv) (rules : List RuleData) (hd : Distinct s.rules)
    (hat : ∀ rule ∈ s.rules, s.Droppable rule) :
    ∃ t, s.reloadNewRules rules = some t ∧ t.Inv ∧ t.rules = parseRules s.created rules ∧
      t.timers.timers = [] := by
  obtain ⟨t, ht, hreg, hshrinks, hlive, htimers⟩ := h.dropRules hd hat
  obtain ⟨u, hu, huinv, hframe⟩ := inv_load (s := t.clearTokens.setRules rules) hreg hlive
    (fun id hid => AList.notMem_empty id hid) htimers fun rule hrule => (mem_parseRules hrule).2.2
  refine ⟨u, by rw [reloadNewRules, ht, Option.bind_some, hu], huinv, ?_, ?_⟩
  · rw [hframe.rules, ← hshrinks.created]
    rfl
  · rw [hframe.timers]
    exact htimers

theorem Inv.setTimers (h : s.Inv) {timers : TaskTimers} (hentered : timers.Entered)
    (hsubset : ∀ timer ∈ timers.timers, timer ∈ s.timers.timers) :
    ({ s with timers := timers } : RulesDispatcher ρ).Inv :=
  ⟨h.subscribed.setTimers timers, hentered,
    fun timer htimer => h.timers timer (hsubset timer htimer), h.objects⟩

/-- A notification that disables a rule. -/
theorem Inv.disable (h : s.Inv) {rule : Rule} (hok : s.Clean (.disable rule))
    (ht : s.step (.disable rule) = some t) : t.Inv := by
  obtain ⟨hrule, hat⟩ := hok
  obtain ⟨u, ok, hu, husub, hshrinks, htimers, -⟩ :=
    h.subscribed.unsubscribeRuleTriggers fun hd other hother hid => by
      obtain rfl := List.inj_on_of_nodup_map hd.1 hother hrule hid
      exact hat
  have huinv : u.Inv := by
    refine ⟨husub, htimers ▸ h.entered, fun timer htimer => ?_, fun other hother => ?_⟩
    · rw [htimers] at htimer
      rw [hshrinks.rules]
      exact h.timers timer htimer
    · rw [hshrinks.created]
      exact h.objects other (hshrinks.rules ▸ hother)
  rw [RulesDispatcher.step] at ht
  split at ht
  · rw [hu, Option.map_some] at ht
    obtain ⟨hentered, hleft⟩ := huinv.entered.unsubscribe rule.id
    exact Option.some.inj ht ▸ huinv.setTimers hentered fun timer htimer => (hleft timer htimer).1
  · cases ht

/-- Other subscribers come and go. -/
theorem Inv.setSubscriptions (h : s.Inv) {sub : SubscriptionState ρ RuleSubscriber}
    (hreg : sub.Registered)
    (hlive : ∀ l ∈ sub.live, l.func.ofRule → l ∈ s.subscriptions.live) :
    ({ s with subscriptions := sub } : RulesDispatcher ρ).Inv := by
  refine ⟨⟨hreg, fun l hl hfunc => h.subscribed.loaded l (hlive l hl hfunc) hfunc,
    h.subscribed.known, fun hd => ⟨fun l hl object hfunc => ?_, fun l hl object hfunc => ?_⟩⟩,
    h.entered, h.timers, h.objects⟩
  · have hof : l.func.ofRule := by rw [hfunc]; rfl
    exact (h.subscribed.covered hd).trigger l (hlive l hl hof) object hfunc
  · have hof : l.func.ofRule := by rw [hfunc]; rfl
    exact (h.subscribed.covered hd).enable l (hlive l hl hof) object hfunc

/-- Every step that meets the condition keeps the invariant. -/
theorem Inv.of_step (h : s.Inv) {a : RulesStep ρ} (hok : s.Clean a) (ht : s.step a = some t) :
    t.Inv := by
  cases a with
  | enable rule result =>
    obtain ⟨u, ok, hu, husub, hframe, -⟩ := h.subscribed.subscribeRuleTriggers rule.id
    have huinv : u.Inv := h.frame husub hframe
    rw [RulesDispatcher.step] at ht
    split at ht
    · rw [hu, Option.map_some] at ht
      obtain rfl := Option.some.inj ht
      dsimp only
      -- the rule is evaluated if its triggers have all been subscribed
      split
      · exact huinv.evaluate (hframe.rules ▸ hok) result
      · exact huinv
    · cases ht
  | disable rule => exact h.disable hok ht
  | evaluate rule result =>
    rw [RulesDispatcher.step] at ht
    split at ht
    · exact Option.some.inj ht ▸ h.evaluate hok result
    · cases ht
  | expire timer =>
    rw [RulesDispatcher.step] at ht
    split at ht
    · obtain rfl := Option.some.inj ht
      have hsubset : ∀ other ∈ s.timers.timers.erase timer, other ∈ s.timers.timers :=
        fun other => List.mem_of_mem_erase
      exact h.setTimers (h.entered.subset hsubset fun _ _ => rfl) hsubset
    · cases ht
  | others n =>
    obtain rfl := Option.some.inj ht
    exact h.setTimers h.entered fun timer htimer => htimer
  | subscribe row id =>
    obtain ⟨sub, token, hsub, hreg, hlive, -⟩ :=
      h.subscribed.registered.subscribeRow row (RuleSubscriber.other id)
    rw [RulesDispatcher.step, hsub, Option.map_some] at ht
    obtain rfl := Option.some.inj ht
    refine h.setSubscriptions hreg fun l hl hof => ?_
    rcases mem_subscribed (hlive ▸ hl) with hold | ⟨-, -, hfunc⟩
    · exact hold
    · rw [hfunc] at hof
      cases hof
  | unsubscribe row token =>
    obtain ⟨sub, hsub, hreg, hlive⟩ := h.subscribed.registered.unsubscribeRow row token
    rw [RulesDispatcher.step] at ht
    split at ht
    · rw [hsub, Option.map_some] at ht
      obtain rfl := Option.some.inj ht
      refine h.setSubscriptions hreg fun l hl _ => ?_
      rw [hlive] at hl
      exact List.mem_of_mem_filter hl
    · cases ht
  | setTable table =>
    obtain rfl := Option.some.inj ht
    exact ⟨⟨h.subscribed.registered, h.subscribed.loaded, h.subscribed.known, fun hd =>
      ⟨(h.subscribed.covered hd).trigger, (h.subscribed.covered hd).enable⟩⟩, h.entered,
      h.timers, h.objects⟩
  | addRule rule => exact h.addRule ht
  | reload rules =>
    obtain ⟨u, hu, huinv, -⟩ := h.reload rules hok.1 hok.2.1
    rw [RulesDispatcher.step, hu] at ht
    exact Option.some.inj ht ▸ huinv

end RulesDispatcher

end UtilityFramework
