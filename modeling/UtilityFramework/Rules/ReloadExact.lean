import UtilityFramework.Rules.ReloadInvariant

/-!
# A reload drops the old rules and registers the new ones

When the rules are dropped, only the other subscribers are left. From there a reload makes the
same subscriptions as a dispatcher that is started with the new rules: the two stay alike
(`RulesDispatcher.Alike`), because the rows depend on the rules and on what names resolve to, not
on the registry, as long as no row runs out of tokens. The rows that are entered for the rules
are the difference: a reload enters none.
-/

namespace UtilityFramework

open Transition

namespace RulesDispatcher

variable {ρ : Type*} [DecidableEq ρ] {s t : RulesDispatcher ρ} {n : ℕ}

/-! ### Two dispatchers in lockstep -/

/-- Two dispatchers that hold the same of their rules, with room for `n` more subscriptions at
each row. -/
structure Alike (n : ℕ) (s t : RulesDispatcher ρ) : Prop where
  same : s.RegisteredAs t
  table : s.table = t.table
  left : s.subscriptions.Registered
  right : t.subscriptions.Registered
  leftRoom : ∀ row, (s.subscriptions.liveOf row).length + n ≤ Signal.maxToken
  rightRoom : ∀ row, (t.subscriptions.liveOf row).length + n ≤ Signal.maxToken

theorem Alike.mono {m : ℕ} (h : Alike n s t) (hle : m ≤ n) : Alike m s t :=
  { h with
    leftRoom := fun row => (Nat.add_le_add_left hle _).trans (h.leftRoom row)
    rightRoom := fun row => (Nat.add_le_add_left hle _).trans (h.rightRoom row) }

/-- A subscription with room for it. -/
theorem subscribeRow_of_room {sub : SubscriptionState ρ RuleSubscriber} (h : sub.Registered)
    (hroom : ∀ row, (sub.liveOf row).length + (n + 1) ≤ Signal.maxToken) (row : ρ)
    (func : RuleSubscriber) :
    ∃ sub' token, sub.subscribeRow row func = some (sub', some token) ∧ sub'.Registered ∧
      sub'.live = [⟨row, token, func⟩] ++ sub.live ∧
      ∀ row, (sub'.liveOf row).length + n ≤ Signal.maxToken := by
  obtain ⟨sub', token, hsub, hreg, hlive, hfree⟩ := h.subscribeRow row func
  have hlt : (sub.liveOf row).length < Signal.maxToken := by
    have hrow := hroom row
    omega
  obtain ⟨token, rfl⟩ := Option.isSome_iff_exists.mp (hfree hlt)
  have hcons : sub'.live = [⟨row, token, func⟩] ++ sub.live := hlive
  refine ⟨sub', token, hsub, hreg, hcons, fun row' => ?_⟩
  have hrow := hroom row'
  have hlength : (sub'.liveOf row').length ≤ (sub.liveOf row').length + 1 := by
    rw [SubscriptionState.liveOf, hcons, List.singleton_append, List.filter_cons]
    split
    · exact le_of_eq List.length_cons
    · exact Nat.le_succ _
  omega

/-- A function of a rule is subscribed in both. -/
theorem Alike.rows_subscribe (h : Alike n s t) {sub sub' : SubscriptionState ρ RuleSubscriber}
    {row : ρ} {func : RuleSubscriber} {token token' : ℤ}
    (hsub : sub.live = [⟨row, token, func⟩] ++ s.subscriptions.live)
    (hsub' : sub'.live = [⟨row, token', func⟩] ++ t.subscriptions.live) :
    ((sub.live.filter fun l => l.func.ofRule).map fun l => (l.row, l.func)) =
      (sub'.live.filter fun l => l.func.ofRule).map fun l => (l.row, l.func) := by
  have hrows := h.same.rows
  rw [ruleRows, ruleRows] at hrows
  rw [hsub, hsub', List.singleton_append, List.singleton_append, List.filter_cons,
    List.filter_cons]
  split
  · rw [List.map_cons, List.map_cons, hrows]
  · exact hrows

theorem Alike.subscribeTrigger (h : Alike (n + 1) s t) (rule : Rule) (trigger : String) (row : ρ) :
    ∃ s' t', s.subscribeTrigger rule trigger row = some s' ∧
      t.subscribeTrigger rule trigger row = some t' ∧ Alike n s' t' ∧ s'.rules = s.rules := by
  obtain ⟨sub, token, hsub, hreg, hlive, hroom⟩ :=
    subscribeRow_of_room h.left h.leftRoom row (.trigger rule.object)
  obtain ⟨sub', token', hsub', hreg', hlive', hroom'⟩ :=
    subscribeRow_of_room h.right h.rightRoom row (.trigger rule.object)
  refine ⟨_, _, congrArg (Option.map _) hsub, congrArg (Option.map _) hsub', ⟨⟨h.same.rules,
    h.rows_subscribe hlive hlive', fun ruleId => ?_, h.same.enables, h.same.enabled,
    h.same.existence⟩, h.table, hreg, hreg', hroom, hroom'⟩, rfl⟩
  dsimp only
  by_cases hid : ruleId = rule.id
  · subst hid
    rw [Function.update_self, Function.update_self]
    exact keys_emplaceToken (h.same.triggers _) _ _
  · rw [Function.update_of_ne hid, Function.update_of_ne hid]
    exact h.same.triggers ruleId

theorem Alike.subscribeTriggers (rule : Rule) (triggers : List String)
    (h : Alike (n + triggers.length) s t) :
    ∃ s' t' ok, s.subscribeTriggers rule triggers = some (s', ok) ∧
      t.subscribeTriggers rule triggers = some (t', ok) ∧ Alike n s' t' ∧
      s'.rules = s.rules := by
  induction triggers generalizing s t with
  | nil => exact ⟨s, t, true, rfl, rfl, h, rfl⟩
  | cons trigger triggers ih =>
    rw [RulesDispatcher.subscribeTriggers, RulesDispatcher.subscribeTriggers, ← h.table]
    cases s.table.byString trigger with
    | none => exact ⟨s, t, false, rfl, rfl, h.mono (Nat.le_add_right _ _), rfl⟩
    | some row =>
      rw [List.length_cons, ← Nat.add_assoc] at h
      obtain ⟨s', t', hs, ht, halike, hrules⟩ := h.subscribeTrigger rule trigger row
      obtain ⟨s'', t'', ok, hs', ht', halike', hrules'⟩ := ih halike
      refine ⟨s'', t'', ok, ?_, ?_, halike', hrules'.trans hrules⟩
      · dsimp only
        rw [hs, Option.bind_some, hs']
      · dsimp only
        rw [ht, Option.bind_some, ht']

/-- The number of triggers of the rule with an id. -/
def triggerCount (rules : List Rule) (ruleId : ℕ) : ℕ :=
  ((rules.find? fun other => other.id = ruleId).map fun other => other.triggers.length).getD 0

theorem Alike.subscribeRuleTriggers {ruleId : ℕ} (h : Alike (n + triggerCount s.rules ruleId) s t) :
    ∃ s' t' ok, s.subscribeRuleTriggers ruleId = some (s', ok) ∧
      t.subscribeRuleTriggers ruleId = some (t', ok) ∧ Alike n s' t' ∧ s'.rules = s.rules := by
  -- both find tokens for the rule, or neither does
  have hnil : (s.triggerTokens ruleId).entries = [] ↔ (t.triggerTokens ruleId).entries = [] := by
    rw [← List.map_eq_nil_iff (f := Sigma.fst), ← List.map_eq_nil_iff (f := Sigma.fst)]
    exact iff_of_eq (congrArg (· = []) (h.same.triggers ruleId))
  rw [RulesDispatcher.subscribeRuleTriggers, RulesDispatcher.subscribeRuleTriggers]
  by_cases hs : (s.triggerTokens ruleId).entries = []
  · rw [if_neg (not_not.mpr hs), if_neg (not_not.mpr (hnil.mp hs))]
    rw [queryRuleById, queryRuleById, ← h.same.rules]
    rw [triggerCount] at h
    cases hquery : s.rules.find? fun rule => rule.id = ruleId with
    | none => exact ⟨s, t, false, rfl, rfl, h.mono (Nat.le_add_right _ _), rfl⟩
    | some rule =>
      rw [hquery, Option.map_some, Option.getD_some] at h
      exact Alike.subscribeTriggers rule rule.triggers h
  · rw [if_pos hs, if_pos fun ht => hs (hnil.mpr ht)]
    exact ⟨s, t, false, rfl, rfl, h.mono (Nat.le_add_right _ _), rfl⟩

theorem Alike.subscribeAllRulesTriggers (rules : List Rule)
    (h : Alike (n + (rules.map fun rule => triggerCount s.rules rule.id).sum) s t) :
    ∃ s' t', s.subscribeAllRulesTriggers rules = some s' ∧
      t.subscribeAllRulesTriggers rules = some t' ∧ Alike n s' t' ∧ s'.rules = s.rules := by
  induction rules generalizing s t with
  | nil => exact ⟨s, t, rfl, rfl, h, rfl⟩
  | cons rule rules ih =>
    rw [List.map_cons, List.sum_cons, Nat.add_comm (triggerCount s.rules rule.id),
      ← Nat.add_assoc] at h
    obtain ⟨s', t', ok, hs, ht, halike, hrules⟩ := h.subscribeRuleTriggers
    rw [← hrules] at halike
    obtain ⟨s'', t'', hs', ht', halike', hrules'⟩ := ih halike
    refine ⟨s'', t'', ?_, ?_, halike', hrules'.trans hrules⟩
    · rw [RulesDispatcher.subscribeAllRulesTriggers, hs, Option.bind_some, hs']
    · rw [RulesDispatcher.subscribeAllRulesTriggers, ht, Option.bind_some, ht']

theorem Alike.subscribeRuleEnabled (h : Alike (n + 1) s t) {rule : Rule} (hrule : rule ∈ s.rules) :
    ∃ s' t', s.subscribeRuleEnabled rule = some s' ∧ t.subscribeRuleEnabled rule = some t' ∧
      Alike n s' t' ∧ s'.rules = s.rules := by
  rw [RulesDispatcher.subscribeRuleEnabled, RulesDispatcher.subscribeRuleEnabled,
    ← h.same.enabled rule hrule]
  cases s.ruleEnabledMap rule.id with
  | none => exact ⟨s, t, rfl, rfl, h.mono (Nat.le_succ n), rfl⟩
  | some row =>
    obtain ⟨sub, token, hsub, hreg, hlive, hroom⟩ :=
      subscribeRow_of_room h.left h.leftRoom row (.enable rule.object)
    obtain ⟨sub', token', hsub', hreg', hlive', hroom'⟩ :=
      subscribeRow_of_room h.right h.rightRoom row (.enable rule.object)
    exact ⟨_, _, congrArg (Option.map _) hsub, congrArg (Option.map _) hsub', ⟨⟨h.same.rules,
      h.rows_subscribe hlive hlive', h.same.triggers, keys_emplaceToken h.same.enables _ _,
      h.same.enabled, h.same.existence⟩, h.table, hreg, hreg', hroom, hroom'⟩, rfl⟩

theorem Alike.subscribeAllRulesEnable (rules : List Rule) (hrules : ∀ rule ∈ rules, rule ∈ s.rules)
    (h : Alike (n + rules.length) s t) :
    ∃ s' t', s.subscribeAllRulesEnable rules = some s' ∧
      t.subscribeAllRulesEnable rules = some t' ∧ Alike n s' t' := by
  induction rules generalizing s t with
  | nil => exact ⟨s, t, rfl, rfl, h⟩
  | cons rule rules ih =>
    rw [List.length_cons, ← Nat.add_assoc] at h
    obtain ⟨s', t', hs, ht, halike, heq⟩ :=
      h.subscribeRuleEnabled (hrules rule List.mem_cons_self)
    obtain ⟨s'', t'', hs', ht', halike'⟩ :=
      ih (fun other hother => heq ▸ hrules other (List.mem_cons_of_mem _ hother)) halike
    refine ⟨s'', t'', ?_, ?_, halike'⟩
    · rw [RulesDispatcher.subscribeAllRulesEnable, hs, Option.bind_some, hs']
    · rw [RulesDispatcher.subscribeAllRulesEnable, ht, Option.bind_some, ht']

/-- Two dispatchers that hold the same of their rules do so when the rules are subscribed. -/
theorem Alike.subscribeAllRules (h : Alike n s t) (hn : n = subscriptionCount s.rules) :
    ∃ s' t', s.subscribeAllRules = some s' ∧ t.subscribeAllRules = some t' ∧
      s'.RegisteredAs t' := by
  rw [hn, subscriptionCount, Nat.add_comm] at h
  obtain ⟨s', t', hs, ht, halike, hrules⟩ := Alike.subscribeAllRulesTriggers s.rules h
  have hcount : Alike (0 + s'.rules.length) s' t' := by
    rw [hrules, Nat.zero_add]
    exact halike
  obtain ⟨s'', t'', hs', ht', halike'⟩ :=
    Alike.subscribeAllRulesEnable s'.rules (fun _ hrule => hrule) hcount
  refine ⟨s'', t'', ?_, ?_, halike'.same⟩
  · rw [RulesDispatcher.subscribeAllRules, hs, Option.bind_some, hs']
  · rw [RulesDispatcher.subscribeAllRules, ← h.same.rules, ht, Option.bind_some,
      ← halike.same.rules, ht']

/-! ### The rows that are entered -/

omit [DecidableEq ρ] in
/-- A row that is entered where `target` has it. -/
theorem emplaceRow_agrees {rows target : ℕ → Option ρ}
    (h : ∀ id, rows id = none ∨ rows id = target id) {ruleId : ℕ} {row : ρ}
    (hrow : target ruleId = some row) :
    emplaceRow rows ruleId row ruleId = some row ∧
      ∀ id, emplaceRow rows ruleId row id = none ∨ emplaceRow rows ruleId row id = target id := by
  rw [emplaceRow]
  split
  · rename_i hsome
    refine ⟨?_, h⟩
    -- an entry that is there is the one of `target`
    rcases h ruleId with hnone | heq
    · rw [hnone] at hsome
      cases hsome
    · rw [heq, hrow]
  · refine ⟨Function.update_self .., fun id => ?_⟩
    by_cases hid : id = ruleId
    · subst hid
      rw [Function.update_self, hrow]
      exact .inr rfl
    · rw [Function.update_of_ne hid]
      exact h id

omit [DecidableEq ρ] in
/-- The rows that start-up enters for rules are those of `enabled` and `existence`, if these have
the rows that the names of the rules resolve to. -/
theorem addRuleRows_spec {enabled existence : ℕ → Option ρ} (rules : List Rule)
    (hrows : ∀ rule ∈ rules,
      (∃ row, s.table.byString (normalizeRuleName rule.name "en") = some row ∧
        enabled rule.id = some row) ∧
      ∃ row, s.table.existence (normalizeRuleName rule.name "r") = some row ∧
        existence rule.id = some row)
    (henabled : ∀ id, s.ruleEnabledMap id = none ∨ s.ruleEnabledMap id = enabled id)
    (hexistence : ∀ id, s.ruleExistenceMap id = none ∨ s.ruleExistenceMap id = existence id) :
    ∃ enabled' existence', s.addRuleRows rules =
        some { s with ruleEnabledMap := enabled', ruleExistenceMap := existence' } ∧
      (∀ id row, s.ruleEnabledMap id = some row → enabled' id = some row) ∧
      (∀ id row, s.ruleExistenceMap id = some row → existence' id = some row) ∧
      ∀ rule ∈ rules, enabled' rule.id = enabled rule.id ∧
        existence' rule.id = existence rule.id := by
  induction rules generalizing s with
  | nil =>
    exact ⟨s.ruleEnabledMap, s.ruleExistenceMap, rfl, fun _ _ h => h, fun _ _ h => h,
      fun _ hrule => absurd hrule List.not_mem_nil⟩
  | cons rule rules ih =>
    obtain ⟨⟨row, hrow, hentered⟩, row', hrow', hentered'⟩ := hrows rule List.mem_cons_self
    obtain ⟨hhead, hagrees⟩ := emplaceRow_agrees henabled hentered
    obtain ⟨hhead', hagrees'⟩ := emplaceRow_agrees hexistence hentered'
    obtain ⟨enabled', existence', heq, hkeep, hkeep', hrules⟩ := ih
      (s := { s with
        ruleEnabledMap := emplaceRow s.ruleEnabledMap rule.id row
        ruleExistenceMap := emplaceRow s.ruleExistenceMap rule.id row' })
      (fun other hother => hrows other (List.mem_cons_of_mem _ hother)) hagrees hagrees'
    refine ⟨enabled', existence', ?_, fun id _ hid => hkeep id _ (emplaceRow_of_some hid _ _),
      fun id _ hid => hkeep' id _ (emplaceRow_of_some hid _ _), fun other hother => ?_⟩
    · simp only [addRuleRows, addRuleEnableRow, hrow, addRuleExistenceRow, hrow', Bool.and_self,
        if_true]
      exact heq
    · rcases List.mem_cons.mp hother with rfl | hother
      · -- what is entered first is not overwritten by the rules behind
        rw [hentered, hentered']
        exact ⟨hkeep _ _ hhead, hkeep' _ _ hhead'⟩
      · exact hrules other hother

/-! ### Reloads -/

/-- What is left when the rules are dropped is what the others have subscribed. -/
theorem length_liveOf_le (ht : s.Shrinks t)
    (hlive : ∀ l ∈ t.subscriptions.live, l.func.ofRule = false) (row : ρ) :
    (t.subscriptions.liveOf row).length ≤ (s.otherLive row).length := by
  have hall : t.subscriptions.liveOf row =
      t.subscriptions.live.filter fun l => l.row = row ∧ l.func.ofRule = false :=
    List.filter_congr fun l hl => by rw [hlive l hl]; simp
  rw [hall]
  exact (ht.live.filter _).length_le

/-- Dispatchers with the new rules, one of which has dropped the old ones and one of which is new,
are alike if they have the same rows for the rules. -/
theorem alike_of_dropped (ht : s.Shrinks t) (hreg : t.subscriptions.Registered)
    (hlive : ∀ l ∈ t.subscriptions.live, l.func.ofRule = false) {rules : List RuleData}
    {enabled existence : ℕ → Option ρ}
    (hentered : ∀ rule ∈ parseRules s.created rules,
      enabled rule.id = s.ruleEnabledMap rule.id ∧ existence rule.id = s.ruleExistenceMap rule.id)
    (hroom : ∀ row, (s.otherLive row).length + n ≤ Signal.maxToken) :
    Alike n (t.clearTokens.setRules rules)
      { (fresh s.table s.created).setRules rules with
        ruleEnabledMap := enabled, ruleExistenceMap := existence } := by
  have hrules : (t.clearTokens.setRules rules).rules = parseRules s.created rules := by
    rw [← ht.created]
    rfl
  have hnone : t.subscriptions.live.filter (fun l => l.func.ofRule) = [] := by
    refine List.filter_eq_nil_iff.mpr fun l hl => ?_
    rw [hlive l hl]
    exact Bool.false_ne_true
  refine ⟨⟨hrules, congrArg (List.map _) hnone, fun _ => rfl, rfl, fun rule hrule => ?_,
    fun rule hrule => ?_⟩, ht.table, hreg, SubscriptionState.registered_init, fun row => ?_,
    fun row => ?_⟩
  · rw [hrules] at hrule
    exact (congrFun ht.enabled rule.id).trans (hentered rule hrule).1.symm
  · rw [hrules] at hrule
    exact (congrFun ht.existence rule.id).trans (hentered rule hrule).2.symm
  · exact (Nat.add_le_add_right (length_liveOf_le ht hlive row) _).trans (hroom row)
  · exact (Nat.add_le_add_right (Nat.zero_le _) _).trans (hroom row)

/-- Nothing that belongs to new rules belongs to an old one. -/
theorem Inv.not_old (h : t.Inv) {rules : List RuleData}
    (hrules : t.rules = parseRules s.created rules) {rule : Rule} (hold : rule.object < s.created)
    {l : LiveSubscriber ρ RuleSubscriber} (hl : l ∈ t.subscriptions.live) :
    l.func ≠ .trigger rule.object ∧ l.func ≠ .enable rule.object := by
  have hnew (hof : l.func.ofRule) : ∃ object, s.created ≤ object ∧
      (l.func = .trigger object ∨ l.func = .enable object) := by
    obtain ⟨other, hother, hfunc⟩ := h.subscribed.loaded l hl hof
    rw [hrules] at hother
    exact ⟨other.object, (mem_parseRules hother).2.1, hfunc⟩
  constructor
  · intro hfunc
    -- objects that are created later have larger numbers
    obtain ⟨object, hle, hobject | hobject⟩ := hnew (by rw [hfunc]; rfl)
    · have heq := RuleSubscriber.trigger.inj (hfunc.symm.trans hobject)
      omega
    · cases hfunc.symm.trans hobject
  · intro hfunc
    obtain ⟨object, hle, hobject | hobject⟩ := hnew (by rw [hfunc]; rfl)
    · cases hfunc.symm.trans hobject
    · have heq := RuleSubscriber.enable.inj (hfunc.symm.trans hobject)
      omega

/-- A reload that meets the condition does what it should. -/
theorem Inv.reloads (h : s.Inv) {rules : List RuleData} (hok : s.Clean (.reload rules)) :
    s.Reloads (.reload rules) := by
  obtain ⟨hd, hat, hrows, hroom⟩ := hok
  obtain ⟨u, hu, huinv, hurules, hutimers⟩ := h.reload rules hd hat
  refine ⟨u, hu, fun rule hrule l hl => huinv.not_old hurules (h.objects rule hrule) hl,
    hutimers, ?_⟩
  obtain ⟨t, ht, hreg, hshrinks, hlive, -⟩ := h.dropRules hd hat
  obtain ⟨enabled, existence, hstart, -, -, hentered⟩ :=
    addRuleRows_spec (s := (fresh s.table s.created).setRules rules)
      (parseRules s.created rules)
      (fun rule hrule => hrows rule.toRuleData (mem_parseRules hrule).1)
      (fun _ => .inl rfl) fun _ => .inl rfl
  obtain ⟨t', u', ht', hu', hsame⟩ :=
    (alike_of_dropped hshrinks hreg hlive hentered hroom).subscribeAllRules
      (by rw [← hshrinks.created]; rfl)
  rw [reloadNewRules, ht, Option.bind_some, ht'] at hu
  obtain rfl := Option.some.inj hu
  refine ⟨u', ?_, hsame⟩
  rw [startUp]
  exact (congrArg (Option.bind · subscribeAllRules) hstart).trans hu'

/-- **Reloading rules.** In every run of a started dispatcher whose steps meet the condition, a
reload leaves no subscription and no timer of the rules that were loaded, and registers the new
rules as a dispatcher that is started with them. -/
theorem reloads_of_clean {table : RuleRows ρ} {first : ℕ} {rules : List RuleData}
    (h : startUp table first rules = some s) (l : List (RulesStep ρ))
    (hok : Guarded RulesDispatcher.step Clean s l) : Guarded RulesDispatcher.step Reloads s l := by
  refine hok.imp (J := fun s => s.Inv) (fun s a t hs hok ht => hs.of_step hok ht)
    (fun s a hs hok => ?_) (inv_startUp h)
  cases a with
  | reload rules => exact hs.reloads hok
  | _ => trivial

/-! ### A sample -/

/-- Rows of two rules and of two triggers. -/
def sampleTable : RuleRows ℕ where
  byString name :=
    if name = "speed" then some 0 else if name = "height" then some 1
    else if name = "enfirst_rule" then some 2 else if name = "ensecond_rule" then some 3
    else none
  existence name :=
    if name = "rfirst_rule" then some 4 else if name = "rsecond_rule" then some 5 else none

def sampleFirst : RuleData := ⟨⟨1, [500], []⟩, "first rule", ["speed"]⟩

def sampleSecond : RuleData := ⟨⟨2, [], []⟩, "second rule", ["speed", "height"]⟩

/-- A dispatcher that is started with the first rule. -/
def sampleStart : RulesDispatcher ℕ :=
  (startUp sampleTable 0 [sampleFirst]).getD (fresh sampleTable 0)

theorem startUp_sample : startUp sampleTable 0 [sampleFirst] = some sampleStart := by
  rfl

/-- The rule is evaluated, which starts a timer, and then gets other triggers. -/
theorem reloads_of_clean_sample :
    startUp sampleTable 0 [sampleFirst] = some sampleStart ∧
      Guarded RulesDispatcher.step Clean sampleStart
        [.evaluate ⟨sampleFirst, 0⟩ true,
          .reload [{ sampleFirst with triggers := ["height", "speed"] }]] ∧
      Guarded RulesDispatcher.step Reloads sampleStart
        [.evaluate ⟨sampleFirst, 0⟩ true,
          .reload [{ sampleFirst with triggers := ["height", "speed"] }]] := by
  have hok : Guarded RulesDispatcher.step Clean sampleStart
      [.evaluate ⟨sampleFirst, 0⟩ true,
        .reload [{ sampleFirst with triggers := ["height", "speed"] }]] := by
    refine .cons rfl (List.mem_singleton.mpr rfl) fun u hu => ⟨⟨?_, ?_, ?_, ?_⟩, trivial⟩
    · refine ⟨List.nodup_singleton _, fun rule hrule => ?_⟩
      obtain rfl := List.mem_singleton.mp hrule
      exact List.nodup_singleton _
    · intro rule hrule trigger htrigger
      obtain rfl := List.mem_singleton.mp hrule
      have hkeys : (sampleStart.triggerTokens 1).keys = ["speed"] := by decide +kernel
      have hmem : trigger ∈ (sampleStart.triggerTokens 1).keys := htrigger
      rw [hkeys] at hmem
      obtain rfl := List.mem_singleton.mp hmem
      exact ⟨by decide, rfl⟩
    · intro rule hrule
      obtain rfl := List.mem_singleton.mp hrule
      exact ⟨⟨2, rfl, rfl⟩, 4, rfl, rfl⟩
    · intro row
      have hall : sampleStart.subscriptions.live.all (fun l => l.func.ofRule) = true := by
        decide +kernel
      have hnone : (sampleStart.evaluate ⟨sampleFirst, 0⟩ true).otherLive row = [] := by
        refine List.filter_eq_nil_iff.mpr fun l hl => ?_
        simp [List.all_eq_true.mp hall l hl]
      rw [hnone]
      decide
  exact ⟨startUp_sample, hok, reloads_of_clean startUp_sample _ hok⟩

/-- A rule with a new id: a dispatcher that is started with it has its enable row, and a reload
leaves it without one. -/
theorem not_reloads_new_id :
    ¬ ∀ (table : RuleRows ℕ) (first : ℕ) (rules : List RuleData) (s : RulesDispatcher ℕ)
      (l : List (RulesStep ℕ)), startUp table first rules = some s →
        Guarded RulesDispatcher.step Reloads s l := by
  intro h
  have hreload : (sampleStart.reloadNewRules [sampleFirst, sampleSecond]).map
      (fun t => t.enableTokens.keys) = some [1] := by decide +kernel
  have hstart : (startUp sampleTable 1 [sampleFirst, sampleSecond]).map
      (fun t => t.enableTokens.keys) = some [2, 1] := by decide +kernel
  obtain ⟨t, ht, -⟩ := Option.map_eq_some_iff.mp hreload
  obtain ⟨⟨t', ht', -, -, u, hu, hsame⟩, -⟩ := h sampleTable 0 [sampleFirst] sampleStart
    [.reload [sampleFirst, sampleSecond]] startUp_sample t ht
  rw [ht', Option.map_some] at hreload
  have hkeys : (startUp sampleTable 1 [sampleFirst, sampleSecond]).map
      (fun t => t.enableTokens.keys) = some u.enableTokens.keys := congrArg (Option.map _) hu
  rw [hkeys, ← hsame.enables, Option.some.inj hreload] at hstart
  exact absurd hstart (by decide)

end RulesDispatcher

end UtilityFramework
