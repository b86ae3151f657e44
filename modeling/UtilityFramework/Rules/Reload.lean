import UtilityFramework.Rules.TaskTimers
import UtilityFramework.Rules.TriggerSubscriptions

/-!
# Loading and reloading rules

A dispatcher reads its rules when it is created: `create_rules_mechanism` enters the enable row
and the existence row of each rule, found by the normalized name of the rule, under its id, and
`start` subscribes its triggers and its enable row. A write to the row `RELOAD_RULES` makes it
read the file again: `reload_new_rules` unsubscribes what the rules have subscribed, cancels their
timers, clears the maps of tokens, parses the file and subscribes the triggers and the enable rows
of the new rules. It does not enter their enable and existence rows, which stay those of the rules
that were created or added before.

Rule objects are numbered in order of their creation; the functions that are subscribed hold the
object. A notification that is queued for a rule when the rules are reloaded is performed
afterwards, with the old object. Rows are as in the subscriptions of triggers: which row a name
has may change at any time. The subscription of the dispatcher to `RELOAD_RULES` is one of the
other subscribers here.
-/

namespace UtilityFramework

open Transition

/-! ### Rules -/

/-- A rule as it is in the file, with its tasks by their timeouts. -/
structure RuleData extends TimedRule where
  name : String
  triggers : List String

/-- An object `rule`. -/
structure Rule extends RuleData where
  object : ℕ

/-- `normalize_rule_name`, which makes the row name as the rules editor writes it. -/
def normalizeRuleName (name start : String) : String :=
  start ++ String.ofList ((name.toList.filter (· ≠ '-')).map fun c =>
    if c = ' ' ∨ c = ',' then '_' else c)

/-- `query_row_by_string`, and `query_row_by_name` of the existence table. -/
structure RuleRows (ρ : Type*) where
  byString : String → Option ρ
  existence : String → Option ρ

/-- Who subscribes to a row: a rule object, to be evaluated or to be enabled and disabled, or
somebody else. -/
inductive RuleSubscriber
  | trigger (object : ℕ)
  | enable (object : ℕ)
  | other (id : ℕ)
  deriving DecidableEq

def RuleSubscriber.ofRule : RuleSubscriber → Bool
  | .other _ => false
  | _ => true

/-- `rules_dispatcher_impl` with its `rules_concrete_generic`; `created` is the number of rule
objects created so far, and `subscribedAt` records the row that a trigger name of a rule was
subscribed at. -/
structure RulesDispatcher (ρ : Type*) where
  table : RuleRows ρ
  rules : List Rule
  created : ℕ
  subscriptions : SubscriptionState ρ RuleSubscriber
  triggerTokens : ℕ → AList fun _ : String => ℤ
  enableTokens : AList fun _ : ℕ => ℤ
  timers : TaskTimers
  ruleEnabledMap : ℕ → Option ρ
  ruleExistenceMap : ℕ → Option ρ
  subscribedAt : ℕ → String → Option ρ

/-- What happens to a dispatcher: the notifications that enable or disable a rule (with the
result of its condition, when it is evaluated) and that evaluate it, the expiry of a timer,
client ids handed out elsewhere, other subscribers, changes of what names resolve to, a rule that
is added, and a reload. -/
inductive RulesStep (ρ : Type*)
  | enable (rule : Rule) (result : Bool)
  | disable (rule : Rule)
  | evaluate (rule : Rule) (result : Bool)
  | expire (timer : TaskTimer)
  | others (n : ℕ)
  | subscribe (row : ρ) (id : ℕ)
  | unsubscribe (row : ρ) (token : ℤ)
  | setTable (table : RuleRows ρ)
  | addRule (rule : RuleData)
  | reload (rules : List RuleData)

/-- `m_rules_vector`, when the file is parsed and `first` objects have been created before. -/
def parseRules (first : ℕ) (rules : List RuleData) : List Rule :=
  (rules.zipIdx first).map fun rule => ⟨rule.1, rule.2⟩

variable {ρ : Type*} [DecidableEq ρ]

/-- `emplace` in a map from rule ids to rows. -/
def emplaceRow (rows : ℕ → Option ρ) (ruleId : ℕ) (row : ρ) : ℕ → Option ρ :=
  if (rows ruleId).isSome then rows else Function.update rows ruleId (some row)

namespace RulesDispatcher

/-- A dispatcher without rules, the rule objects being numbered from `first`. -/
def fresh (table : RuleRows ρ) (first : ℕ) : RulesDispatcher ρ where
  table := table
  rules := []
  created := first
  subscriptions := SubscriptionState.init
  triggerTokens _ := ∅
  enableTokens := ∅
  timers := TaskTimers.init 0
  ruleEnabledMap _ := none
  ruleExistenceMap _ := none
  subscribedAt _ _ := none

/-! ### Enable rows and existence rows -/

def addRuleEnableRow (s : RulesDispatcher ρ) (ruleId : ℕ) (name : String) :
    RulesDispatcher ρ × Bool :=
  match s.table.byString (normalizeRuleName name "en") with
  | none => (s, false)
  | some row => ({ s with ruleEnabledMap := emplaceRow s.ruleEnabledMap ruleId row }, true)

def addRuleExistenceRow (s : RulesDispatcher ρ) (ruleId : ℕ) (name : String) :
    RulesDispatcher ρ × Bool :=
  match s.table.existence (normalizeRuleName name "r") with
  | none => (s, false)
  | some row => ({ s with ruleExistenceMap := emplaceRow s.ruleExistenceMap ruleId row }, true)

/-- The loop of `create_rules_mechanism`; `none` when it throws. -/
def addRuleRows (s : RulesDispatcher ρ) : List Rule → Option (RulesDispatcher ρ)
  | [] => some s
  | rule :: rules =>
    let enabled := s.addRuleEnableRow rule.id rule.name
    let existence := enabled.1.addRuleExistenceRow rule.id rule.name
    if enabled.2 && existence.2 then existence.1.addRuleRows rules else none

/-! ### Triggers -/

/-- `query_rule_by_id`: the first rule with the id. -/
def queryRuleById (s : RulesDispatcher ρ) (ruleId : ℕ) : Option Rule :=
  s.rules.find? fun rule => rule.id = ruleId

/-- A subscription of `subscribe_rule_triggers`, and its token. -/
def subscribeTrigger (s : RulesDispatcher ρ) (rule : Rule) (trigger : String) (row : ρ) :
    Option (RulesDispatcher ρ) :=
  (s.subscriptions.subscribeRow row (.trigger rule.object)).map fun r =>
    { s with
      subscriptions := r.1
      triggerTokens := Function.update s.triggerTokens rule.id
        (emplaceToken (s.triggerTokens rule.id) trigger (r.2.getD (-1)))
      subscribedAt := Function.update s.subscribedAt rule.id
        (Function.update (s.subscribedAt rule.id) trigger (some row)) }

/-- The loop of `subscribe_rule_triggers`. -/
def subscribeTriggers (s : RulesDispatcher ρ) (rule : Rule) :
    List String → Option (RulesDispatcher ρ × Bool)
  | [] => some (s, true)
  | trigger :: triggers =>
    match s.table.byString trigger with
    -- what has been subscribed before stays
    | none => some (s, false)
    | some row => (s.subscribeTrigger rule trigger row).bind fun t =>
        t.subscribeTriggers rule triggers

def subscribeRuleTriggers (s : RulesDispatcher ρ) (ruleId : ℕ) :
    Option (RulesDispatcher ρ × Bool) :=
  if (s.triggerTokens ruleId).entries ≠ [] then some (s, false)
  else
    match s.queryRuleById ruleId with
    | none => some (s, false)
    | some rule => s.subscribeTriggers rule rule.triggers

/-- An unsubscription of `unsubscribe_rule_triggers`. The token of a trigger without entry is
the default, zero. -/
def unsubscribeTrigger (s : RulesDispatcher ρ) (ruleId : ℕ) (trigger : String) (row : ρ) :
    Option (RulesDispatcher ρ) :=
  (s.subscriptions.step
      (.unsubscribe row (((s.triggerTokens ruleId).lookup trigger).getD 0))).map
    fun subscriptions =>
      { s with
        subscriptions := subscriptions
        triggerTokens := Function.update s.triggerTokens ruleId
          ((s.triggerTokens ruleId).erase trigger) }

/-- The loop of `unsubscribe_rule_triggers`. -/
def unsubscribeTriggers (s : RulesDispatcher ρ) (ruleId : ℕ) :
    List String → Option (RulesDispatcher ρ × Bool)
  | [] => some (s, true)
  | trigger :: triggers =>
    match s.table.byString trigger with
    -- the triggers behind it keep their subscriptions and their tokens
    | none => some (s, false)
    | some row => (s.unsubscribeTrigger ruleId trigger row).bind fun t =>
        t.unsubscribeTriggers ruleId triggers

def unsubscribeRuleTriggers (s : RulesDispatcher ρ) (ruleId : ℕ) :
    Option (RulesDispatcher ρ × Bool) :=
  if (s.triggerTokens ruleId).entries = [] then some (s, false)
  else
    match s.queryRuleById ruleId with
    | none => some (s, false)
    | some rule => s.unsubscribeTriggers ruleId rule.triggers

/-! ### Enabling, and timers -/

/-- `subscribe_rule_enabled` of a rule; one without an enable row is left out. -/
def subscribeRuleEnabled (s : RulesDispatcher ρ) (rule : Rule) : Option (RulesDispatcher ρ) :=
  match s.ruleEnabledMap rule.id with
  | none => some s
  | some row =>
    (s.subscriptions.subscribeRow row (.enable rule.object)).map fun r =>
      { s with
        subscriptions := r.1
        enableTokens := emplaceToken s.enableTokens rule.id (r.2.getD (-1)) }

def unsubscribeRuleEnable (s : RulesDispatcher ρ) (ruleId : ℕ) : Option (RulesDispatcher ρ) :=
  -- the whole map is asked, not the entry of the rule
  if s.enableTokens.entries = [] then some s
  else
    match s.queryRuleById ruleId, s.ruleEnabledMap ruleId with
    | some _, some row =>
      (s.subscriptions.step
          (.unsubscribe row ((s.enableTokens.lookup ruleId).getD 0))).map fun subscriptions =>
        { s with
          subscriptions := subscriptions
          enableTokens := s.enableTokens.erase ruleId }
    | _, _ => some s

def unsubscribeRuleTasksTimers (s : RulesDispatcher ρ) (ruleId : ℕ) : RulesDispatcher ρ :=
  { s with timers := (s.timers.unsubscribeRuleTasksTimers ruleId).1 }

def evaluate (s : RulesDispatcher ρ) (rule : Rule) (result : Bool) : RulesDispatcher ρ :=
  { s with timers := s.timers.evaluate rule.toTimedRule result }

/-! ### Starting and reloading -/

def subscribeAllRulesTriggers (s : RulesDispatcher ρ) : List Rule → Option (RulesDispatcher ρ)
  | [] => some s
  | rule :: rules =>
    (s.subscribeRuleTriggers rule.id).bind fun r => r.1.subscribeAllRulesTriggers rules

def subscribeAllRulesEnable (s : RulesDispatcher ρ) : List Rule → Option (RulesDispatcher ρ)
  | [] => some s
  | rule :: rules => (s.subscribeRuleEnabled rule).bind fun t => t.subscribeAllRulesEnable rules

/-- `m_rules_vector`, filled by the parser. -/
def setRules (s : RulesDispatcher ρ) (rules : List RuleData) : RulesDispatcher ρ :=
  { s with rules := parseRules s.created rules, created := s.created + rules.length }

/-- What `start` and `reload_new_rules` do with the rules. -/
def subscribeAllRules (s : RulesDispatcher ρ) : Option (RulesDispatcher ρ) :=
  (s.subscribeAllRulesTriggers s.rules).bind fun t => t.subscribeAllRulesEnable t.rules

/-- A dispatcher that is created and started; `none` when its creation throws. -/
def startUp (table : RuleRows ρ) (first : ℕ) (rules : List RuleData) :
    Option (RulesDispatcher ρ) :=
  let s := (fresh table first).setRules rules
  (s.addRuleRows s.rules).bind subscribeAllRules

/-- The body of the loop in `reload_new_rules`. -/
def dropRule (s : RulesDispatcher ρ) (ruleId : ℕ) : Option (RulesDispatcher ρ) :=
  (s.unsubscribeRuleTriggers ruleId).bind fun r =>
    (r.1.unsubscribeRuleTasksTimers ruleId).unsubscribeRuleEnable ruleId

def dropRules (s : RulesDispatcher ρ) : List Rule → Option (RulesDispatcher ρ)
  | [] => some s
  | rule :: rules => (s.dropRule rule.id).bind fun t => t.dropRules rules

def clearTokens (s : RulesDispatcher ρ) : RulesDispatcher ρ :=
  { s with
    timers := { s.timers with tokens := fun _ => none }
    triggerTokens := fun _ => ∅
    enableTokens := ∅ }

/-- `reload_new_rules`, when the file now has the given rules. -/
def reloadNewRules (s : RulesDispatcher ρ) (rules : List RuleData) :
    Option (RulesDispatcher ρ) :=
  (s.dropRules s.rules).bind fun t => (t.clearTokens.setRules rules).subscribeAllRules

/-- `add_rule`; whether the rows of the rule exist is not asked. -/
def addRule (s : RulesDispatcher ρ) (data : RuleData) : Option (RulesDispatcher ρ) :=
  let rule : Rule := ⟨data, s.created⟩
  let added := { s with rules := s.rules ++ [rule], created := s.created + 1 }
  let entered := ((added.addRuleEnableRow rule.id rule.name).1.addRuleExistenceRow rule.id
    rule.name).1
  (entered.subscribeRuleTriggers rule.id).bind fun r =>
    -- with an id that is in use this is another rule
    match r.1.queryRuleById rule.id with
    | none => some r.1
    | some first => r.1.subscribeRuleEnabled first

/-- One step. Notifications are for rule objects that have been created, and other subscribers
unsubscribe what they have subscribed. -/
def step (s : RulesDispatcher ρ) : RulesStep ρ → Option (RulesDispatcher ρ)
  | .enable rule result =>
    if rule.object < s.created then
      (s.subscribeRuleTriggers rule.id).map fun r =>
        if r.2 then r.1.evaluate rule result else r.1
    else none
  | .disable rule =>
    if rule.object < s.created then
      (s.unsubscribeRuleTriggers rule.id).map fun r => r.1.unsubscribeRuleTasksTimers rule.id
    else none
  | .evaluate rule result =>
    if rule.object < s.created then some (s.evaluate rule result) else none
  | .expire timer =>
    if timer ∈ s.timers.timers then
      some { s with timers := { s.timers with timers := s.timers.timers.erase timer } }
    else none
  | .others n =>
    some { s with timers := { s.timers with nextId := (s.timers.nextId + n) % 2147483647 } }
  | .subscribe row id =>
    (s.subscriptions.subscribeRow row (.other id)).map fun r => { s with subscriptions := r.1 }
  | .unsubscribe row token =>
    match s.subscriptions.registry.lookup row token with
    | some (.other _) =>
      (s.subscriptions.step (.unsubscribe row token)).map fun subscriptions =>
        { s with subscriptions := subscriptions }
    | _ => none
  | .setTable table => some { s with table := table }
  | .addRule rule => s.addRule rule
  | .reload rules => s.reloadNewRules rules

/-! ### What a reload should do -/

/-- The rows at which rules are subscribed, with the function. -/
def ruleRows (s : RulesDispatcher ρ) : List (ρ × RuleSubscriber) :=
  (s.subscriptions.live.filter fun l => l.func.ofRule).map fun l => (l.row, l.func)

/-- Two dispatchers with the same rules hold the same of them: the triggers and the enable rows
are subscribed at the same rows, tokens are recorded for the same, and the enable rows and the
existence rows are the same. -/
structure RegisteredAs (s t : RulesDispatcher ρ) : Prop where
  rules : s.rules = t.rules
  rows : s.ruleRows = t.ruleRows
  triggers : ∀ ruleId, (s.triggerTokens ruleId).keys = (t.triggerTokens ruleId).keys
  enables : s.enableTokens.keys = t.enableTokens.keys
  enabled : ∀ rule ∈ s.rules, s.ruleEnabledMap rule.id = t.ruleEnabledMap rule.id
  existence : ∀ rule ∈ s.rules, s.ruleExistenceMap rule.id = t.ruleExistenceMap rule.id

/-- After a reload no old rule has a subscription or a timer, and the new rules are registered as
in a dispatcher that is started with them. -/
def Reloads (s : RulesDispatcher ρ) : RulesStep ρ → Prop
  | .reload rules => ∃ t, s.reloadNewRules rules = some t ∧
      (∀ rule ∈ s.rules, ∀ l ∈ t.subscriptions.live,
        l.func ≠ .trigger rule.object ∧ l.func ≠ .enable rule.object) ∧
      t.timers.timers = [] ∧
      ∃ u, startUp s.table s.created rules = some u ∧ t.RegisteredAs u
  | _ => True

/-! ### When it does -/

/-- Rules have different ids, and name each trigger once. -/
def Distinct (rules : List Rule) : Prop :=
  (rules.map fun rule => rule.id).Nodup ∧ ∀ rule ∈ rules, rule.triggers.Nodup

/-- The triggers of a rule up to the first that resolves to no row. -/
def reached (s : RulesDispatcher ρ) (rule : Rule) : List String :=
  rule.triggers.takeWhile fun trigger => (s.table.byString trigger).isSome

/-- The number of subscriptions that the rules make. -/
def subscriptionCount (rules : List Rule) : ℕ :=
  (rules.map fun rule =>
    ((rules.find? fun other => other.id = rule.id).map fun other =>
      other.triggers.length).getD 0).sum + rules.length

/-- The subscriptions that are not those of rules. -/
def otherLive (s : RulesDispatcher ρ) (row : ρ) : List (LiveSubscriber ρ RuleSubscriber) :=
  s.subscriptions.live.filter fun l => l.row = row ∧ l.func.ofRule = false

/-- The condition. A rule that is notified is still loaded. When triggers are unsubscribed, those
that are reached and have a token resolve to the rows that they were subscribed at; a reload
reaches all that have one. The rules that a reload drops are distinct, the rows of the new rules
are those that are entered under their ids, and no row runs out of tokens. -/
def Clean (s : RulesDispatcher ρ) : RulesStep ρ → Prop
  | .enable rule _ | .evaluate rule _ => rule ∈ s.rules
  | .disable rule => rule ∈ s.rules ∧
      ∀ trigger ∈ s.reached rule, trigger ∈ s.triggerTokens rule.id →
        s.table.byString trigger = s.subscribedAt rule.id trigger
  | .reload rules => Distinct s.rules ∧
      (∀ rule ∈ s.rules, ∀ trigger ∈ s.triggerTokens rule.id,
        trigger ∈ s.reached rule ∧
          s.table.byString trigger = s.subscribedAt rule.id trigger) ∧
      (∀ rule ∈ rules,
        (∃ row, s.table.byString (normalizeRuleName rule.name "en") = some row ∧
          s.ruleEnabledMap rule.id = some row) ∧
        ∃ row, s.table.existence (normalizeRuleName rule.name "r") = some row ∧
          s.ruleExistenceMap rule.id = some row) ∧
      ∀ row, (s.otherLive row).length + subscriptionCount (parseRules s.created rules) ≤
        Signal.maxToken
  | _ => True

end RulesDispatcher

end UtilityFramework
