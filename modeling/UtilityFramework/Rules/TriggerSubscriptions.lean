import Mathlib.Data.List.AList
import UtilityFramework.Database.SubscriptionTokens

/-!
# The trigger subscriptions of rules

A rule is evaluated when one of its trigger rows is written: `subscribe_rule_triggers` looks up
the row of each trigger name and subscribes a function that evaluates the rule, and keeps the
token in `m_subscription_triggers_tokens` under the id of the rule and the name of the trigger.
`unsubscribe_rule_triggers` goes through the names again and looks up the rows and the tokens.
The first is called when the dispatcher starts and when a notification enables the rule, the
second when a notification disables it. Both loops return false at the first name that resolves
to no row.

The subscriptions are in the registry of the dispatcher, with those of other subscribers.
Which row a name resolves to may change at any time. A subscription keeps its row alive, so rows
with subscriptions are not destroyed. `last` records how the latest notification of a rule
ended.
-/

namespace UtilityFramework

open Transition

/-! ### The registry -/

section Registry

variable {ρ φ : Type*} [DecidableEq ρ]

/-- The token of a subscription comes from the signal of the row. -/
theorem Subscriptions.token_subscribe {s : Subscriptions ρ φ} {row : ρ} {f : φ}
    {r : Subscriptions ρ φ × Option ℤ} (h : s.subscribe row f = some r) :
    r.2 = ((s.dataChanged (s.rowCallbacks row).rowCallback).subscribe f).2 := by
  simp only [subscribe] at h
  split at h
  · obtain ⟨u, -, hu⟩ := Option.map_eq_some_iff.mp h
    rw [← hu]
  · rw [← Option.some.inj h]

namespace SubscriptionState

/-- `subscribe` with its token. -/
def subscribeRow (s : SubscriptionState ρ φ) (row : ρ) (f : φ) :
    Option (SubscriptionState ρ φ × Option ℤ) :=
  (s.registry.subscribe row f).map fun r =>
    (⟨r.1, (r.2.map fun token => ⟨row, token, f⟩).toList ++ s.live⟩, r.2)

variable {s t : SubscriptionState ρ φ}

theorem step_subscribe_eq (s : SubscriptionState ρ φ) (row : ρ) (f : φ) :
    s.step (.subscribe row f) = (s.subscribeRow row f).map Prod.fst := by
  rw [step, subscribeRow, Option.map_map]
  rfl

/-- A subscription goes through; it gets a token that no other subscription of the row has,
unless all tokens are in use. -/
theorem Registered.subscribeRow (h : s.Registered) (row : ρ) (f : φ) :
    ∃ t token, s.subscribeRow row f = some (t, token) ∧ t.Registered ∧
      t.live = (token.map fun token => ⟨row, token, f⟩).toList ++ s.live ∧
      ((s.liveOf row).length < Signal.maxToken → token.isSome) := by
  obtain ⟨t, ht, hreg⟩ := h.step (.subscribe row f)
  rw [step_subscribe_eq] at ht
  obtain ⟨⟨t', token⟩, hrow, rfl⟩ := Option.map_eq_some_iff.mp ht
  refine ⟨t', token, hrow, hreg, ?_, fun hlt => ?_⟩
  · rw [SubscriptionState.subscribeRow] at hrow
    obtain ⟨r, -, hr⟩ := Option.map_eq_some_iff.mp hrow
    obtain ⟨rfl, rfl⟩ := Prod.mk.inj hr
    rfl
  · -- the token comes from the signal of the row
    rw [SubscriptionState.subscribeRow] at hrow
    obtain ⟨r, hr, hr'⟩ := Option.map_eq_some_iff.mp hrow
    obtain ⟨-, rfl⟩ := Prod.mk.inj hr'
    have hresult := Subscriptions.token_subscribe hr
    have hcount : (s.registry.dataChanged (s.registry.rowCallbacks row).rowCallback).count <
        Signal.maxToken := by
      cases hcb : s.registry.callbacks row with
      | none =>
        have hnew : s.registry.rowCallbacks row = ⟨s.registry.created, s.registry.created⟩ := by
          rw [Subscriptions.rowCallbacks, hcb]
          rfl
        rw [hnew, (h.fresh s.registry.created le_rfl).1]
        exact (by decide : 0 < Signal.maxToken)
      | some cb =>
        have hold : s.registry.rowCallbacks row = cb := by
          rw [Subscriptions.rowCallbacks, hcb]
          rfl
        rw [hold, (h.present row cb hcb).count_eq]
        exact hlt
    rcases (s.registry.dataChanged (s.registry.rowCallbacks row).rowCallback).subscribe_cases f
      with ⟨hnone, -⟩ | ⟨token, -, htoken, -⟩
    · exact absurd hcount (Nat.not_lt.mpr (Signal.maxToken_le_of_freeToken_eq_none hnone))
    · rw [hresult, htoken]
      rfl

/-- An unsubscription takes out what is subscribed to the row under the token. -/
theorem Registered.unsubscribeRow (h : s.Registered) (row : ρ) (token : ℤ) :
    ∃ t, s.step (.unsubscribe row token) = some t ∧ t.Registered ∧
      t.live = s.live.filter fun l => ¬(l.row = row ∧ l.token = token) := by
  obtain ⟨t, ht, hreg⟩ := h.step (.unsubscribe row token)
  refine ⟨t, ht, hreg, ?_⟩
  obtain ⟨⟨registry, ok⟩, hr, rfl⟩ := Option.map_eq_some_iff.mp ht
  cases ok with
  | true => rfl
  | false =>
    -- nothing was subscribed there
    refine (List.filter_eq_self.mpr fun l hl => ?_).symm
    rw [decide_eq_true_iff]
    rintro ⟨rfl, rfl⟩
    have hlookup := (h.lookup_eq_some_iff l.row l.token l.func).mpr hl
    exact Bool.false_ne_true ((Subscriptions.unsubscribe_eq_true_iff hr).mpr ⟨l.func, hlookup⟩)

/-- A row and a token identify a live subscription. -/
theorem Registered.func_eq (h : s.Registered) {l l' : LiveSubscriber ρ φ} (hl : l ∈ s.live)
    (hl' : l' ∈ s.live) (hrow : l.row = l'.row) (htoken : l.token = l'.token) :
    l.func = l'.func := by
  have hlookup := (h.lookup_eq_some_iff l.row l.token l.func).mpr hl
  have hlookup' := (h.lookup_eq_some_iff l'.row l'.token l'.func).mpr hl'
  rw [hrow, htoken, hlookup'] at hlookup
  exact (Option.some.inj hlookup).symm

end SubscriptionState

end Registry

/-! ### Rules and their triggers -/

/-- Who subscribes to a row: a rule, to be evaluated, or somebody else. -/
inductive Subscriber
  | rule (id : ℕ)
  | other (id : ℕ)
  deriving DecidableEq

/-- How the latest attempt to enable or disable a rule ended. -/
inductive Notified
  | enabled
  | notEnabled
  | disabled

/-- The subscriptions of the rules dispatcher, what trigger names resolve to at present, and
`m_subscription_triggers_tokens`; `rows` records which rows the triggers of a rule resolved to
when they were subscribed. -/
structure RuleTriggers (ρ ν : Type*) where
  subscriptions : SubscriptionState ρ Subscriber
  resolve : ν → Option ρ
  tokens : ℕ → AList fun _ : ν => ℤ
  last : ℕ → Option Notified
  rows : ℕ → List ρ

/-- An enabling of a rule (by a notification, or when the dispatcher starts), a notification
that disables a rule, other subscribers, and changes of what names resolve to. -/
inductive RuleTriggerStep (ρ ν : Type*)
  | enable (ruleId : ℕ)
  | disable (ruleId : ℕ)
  | subscribe (row : ρ) (id : ℕ)
  | unsubscribe (row : ρ) (token : ℤ)
  | setResolve (resolve : ν → Option ρ)

variable {ρ ν : Type*} [DecidableEq ρ] [DecidableEq ν]

/-- `std::unordered_map::emplace` does nothing if there is an entry. -/
def emplaceToken (tokens : AList fun _ : ν => ℤ) (trigger : ν) (token : ℤ) :
    AList fun _ : ν => ℤ :=
  if trigger ∈ tokens then tokens else tokens.insert trigger token

namespace RuleTriggers

def init (resolve : ν → Option ρ) : RuleTriggers ρ ν where
  subscriptions := SubscriptionState.init
  resolve := resolve
  tokens _ := ∅
  last _ := none
  rows _ := []

/-- The loop of `subscribe_rule_triggers`. A subscription for which no token is left counts as
one, with the token `subscription_token_undefined`. -/
def subscribeTriggers (s : RuleTriggers ρ ν) (ruleId : ℕ) :
    List ν → Option (RuleTriggers ρ ν × Bool)
  | [] => some (s, true)
  | trigger :: triggers =>
    match s.resolve trigger with
    | none => some (s, false)
    | some row =>
      (s.subscriptions.subscribeRow row (.rule ruleId)).bind fun r =>
        subscribeTriggers
          { s with
            subscriptions := r.1
            tokens := Function.update s.tokens ruleId
              (emplaceToken (s.tokens ruleId) trigger (r.2.getD (-1))) }
          ruleId triggers

/-- `subscribe_rule_triggers`; `rules` has the triggers of each rule. -/
def subscribeRuleTriggers (rules : List (ℕ × List ν)) (s : RuleTriggers ρ ν) (ruleId : ℕ) :
    Option (RuleTriggers ρ ν × Bool) :=
  if (s.tokens ruleId).entries ≠ [] then some (s, false)
  else
    match rules.lookup ruleId with
    | none => some (s, false)
    | some triggers => s.subscribeTriggers ruleId triggers

/-- The loop of `unsubscribe_rule_triggers`. The token of a trigger without entry is the
default, zero. -/
def unsubscribeTriggers (s : RuleTriggers ρ ν) (ruleId : ℕ) :
    List ν → Option (RuleTriggers ρ ν × Bool)
  | [] => some (s, true)
  | trigger :: triggers =>
    match s.resolve trigger with
    | none => some (s, false)
    | some row =>
      let token := ((s.tokens ruleId).lookup trigger).getD 0
      (s.subscriptions.step (.unsubscribe row token)).bind fun subscriptions =>
        unsubscribeTriggers
          { s with
            subscriptions := subscriptions
            tokens := Function.update s.tokens ruleId ((s.tokens ruleId).erase trigger) }
          ruleId triggers

def unsubscribeRuleTriggers (rules : List (ℕ × List ν)) (s : RuleTriggers ρ ν) (ruleId : ℕ) :
    Option (RuleTriggers ρ ν × Bool) :=
  if (s.tokens ruleId).entries = [] then some (s, false)
  else
    match rules.lookup ruleId with
    | none => some (s, false)
    | some triggers => s.unsubscribeTriggers ruleId triggers

/-- The rows that the triggers of a rule resolve to. -/
def triggerRows (rules : List (ℕ × List ν)) (s : RuleTriggers ρ ν) (ruleId : ℕ) : List ρ :=
  ((rules.lookup ruleId).getD []).filterMap s.resolve

/-- One step. Other subscribers unsubscribe what they have subscribed. -/
def step (rules : List (ℕ × List ν)) (s : RuleTriggers ρ ν) :
    RuleTriggerStep ρ ν → Option (RuleTriggers ρ ν)
  | .enable ruleId =>
    (s.subscribeRuleTriggers rules ruleId).map fun r =>
      if r.2 then
        { r.1 with
          last := Function.update s.last ruleId (some .enabled)
          rows := Function.update s.rows ruleId (s.triggerRows rules ruleId) }
      else { r.1 with last := Function.update s.last ruleId (some .notEnabled) }
  | .disable ruleId =>
    (s.unsubscribeRuleTriggers rules ruleId).map fun r =>
      { r.1 with last := Function.update s.last ruleId (some .disabled) }
  | .subscribe row id =>
    (s.subscriptions.subscribeRow row (.other id)).map fun r => { s with subscriptions := r.1 }
  | .unsubscribe row token =>
    match s.subscriptions.registry.lookup row token with
    | some (.rule _) => none
    | _ =>
      (s.subscriptions.step (.unsubscribe row token)).map fun subscriptions =>
        { s with subscriptions := subscriptions }
  | .setResolve resolve => some { s with resolve := resolve }

/-- How many times a rule is evaluated when a row is written. -/
def evaluations (s : RuleTriggers ρ ν) (ruleId : ℕ) (row : ρ) : ℕ :=
  (s.subscriptions.registry.notify row).count (.rule ruleId)

/-- A rule that has been enabled is evaluated once for each write to one of its trigger rows,
and for no other; one that has been disabled is not evaluated. -/
def Exact (s : RuleTriggers ρ ν) : Prop :=
  ∀ ruleId,
    (s.last ruleId = some .enabled →
      ∀ row, s.evaluations ruleId row = if row ∈ s.rows ruleId then 1 else 0) ∧
    (s.last ruleId = some .disabled → ∀ row, s.evaluations ruleId row = 0)

/-- A subscription or unsubscription of triggers that fails changes nothing. -/
def Atomic (rules : List (ℕ × List ν)) (s : RuleTriggers ρ ν) : RuleTriggerStep ρ ν → Prop
  | .enable ruleId => ∀ t, s.subscribeRuleTriggers rules ruleId = some (t, false) → t = s
  | .disable ruleId => ∀ t, s.unsubscribeRuleTriggers rules ruleId = some (t, false) → t = s
  | _ => True

/-- The condition: when the triggers of a rule are subscribed, either the first resolves to no
row or all do, to different rows with a token left; when they are unsubscribed, each still
resolves to the row it was subscribed to. -/
def Resolves (rules : List (ℕ × List ν)) (s : RuleTriggers ρ ν) : RuleTriggerStep ρ ν → Prop
  | .enable ruleId => (s.tokens ruleId).entries = [] →
    ∀ triggers, rules.lookup ruleId = some triggers →
      (∃ trigger ∈ triggers.head?, s.resolve trigger = none) ∨
        ∃ rows : List ρ, triggers.map s.resolve = rows.map some ∧ rows.Nodup ∧
          ∀ row ∈ rows, (s.subscriptions.liveOf row).length < Signal.maxToken
  | .disable ruleId => (s.tokens ruleId).entries ≠ [] →
    ∀ triggers, rules.lookup ruleId = some triggers →
      triggers.map s.resolve = (s.rows ruleId).map some
  | _ => True

end RuleTriggers

/-! ### Tokens and subscriptions -/

/-- A trigger with the row it is subscribed to and the token. -/
structure TriggerEntry (ρ ν : Type*) where
  trigger : ν
  row : ρ
  token : ℤ

namespace RuleTriggers

/-- The live subscriptions of a rule. -/
def ruleLive (s : RuleTriggers ρ ν) (ruleId : ℕ) : List (LiveSubscriber ρ Subscriber) :=
  s.subscriptions.live.filter (·.func = .rule ruleId)

/-- The tokens recorded for a rule and its live subscriptions are those of `entries`, for
different triggers and different rows. -/
structure Holds (s : RuleTriggers ρ ν) (ruleId : ℕ) (entries : List (TriggerEntry ρ ν)) :
    Prop where
  rows : (entries.map TriggerEntry.row).Nodup
  triggers : (entries.map TriggerEntry.trigger).Nodup
  lookup : ∀ e ∈ entries, (s.tokens ruleId).lookup e.trigger = some e.token
  keys : ∀ trigger ∈ s.tokens ruleId, trigger ∈ entries.map TriggerEntry.trigger
  live : (s.ruleLive ruleId).Perm (entries.map fun e => ⟨e.row, e.token, .rule ruleId⟩)

/-- What an operation on the triggers of one rule leaves alone. -/
structure Frame (s t : RuleTriggers ρ ν) (ruleId : ℕ) : Prop where
  resolve : t.resolve = s.resolve
  last : t.last = s.last
  rows : t.rows = s.rows
  tokens : ∀ other ≠ ruleId, t.tokens other = s.tokens other
  live : ∀ other ≠ ruleId, t.ruleLive other = s.ruleLive other

variable {s t u : RuleTriggers ρ ν} {ruleId : ℕ} {entries : List (TriggerEntry ρ ν)}

omit [DecidableEq ρ] [DecidableEq ν] in
theorem Frame.refl (s : RuleTriggers ρ ν) (ruleId : ℕ) : s.Frame s ruleId :=
  ⟨rfl, rfl, rfl, fun _ _ => rfl, fun _ _ => rfl⟩

omit [DecidableEq ρ] [DecidableEq ν] in
theorem Frame.trans (h : s.Frame t ruleId) (h' : t.Frame u ruleId) : s.Frame u ruleId where
  resolve := h'.resolve.trans h.resolve
  last := h'.last.trans h.last
  rows := h'.rows.trans h.rows
  tokens other hne := (h'.tokens other hne).trans (h.tokens other hne)
  live other hne := (h'.live other hne).trans (h.live other hne)

omit [DecidableEq ρ] in
theorem Holds.congr (h : s.Holds ruleId entries) (htokens : t.tokens ruleId = s.tokens ruleId)
    (hlive : t.ruleLive ruleId = s.ruleLive ruleId) : t.Holds ruleId entries where
  rows := h.rows
  triggers := h.triggers
  lookup := by rw [htokens]; exact h.lookup
  keys := by rw [htokens]; exact h.keys
  live := by rw [hlive]; exact h.live

omit [DecidableEq ρ] in
/-- There are tokens precisely for a rule with subscriptions. -/
theorem Holds.tokens_eq_nil_iff (h : s.Holds ruleId entries) :
    (s.tokens ruleId).entries = [] ↔ entries = [] := by
  constructor
  · intro hnil
    by_contra hne
    obtain ⟨e, he⟩ := List.exists_mem_of_ne_nil entries hne
    have hmem := AList.mem_lookup_iff.mp (Option.mem_def.mpr (h.lookup e he))
    rw [hnil] at hmem
    exact absurd hmem List.not_mem_nil
  · rintro rfl
    by_contra hne
    obtain ⟨⟨trigger, token⟩, he⟩ := List.exists_mem_of_ne_nil _ hne
    have hkey : trigger ∈ s.tokens ruleId := AList.mem_keys.mpr (List.mem_keys_of_mem he)
    exact absurd (h.keys trigger hkey) List.not_mem_nil

omit [DecidableEq ν] in
/-- The number of evaluations is the number of live subscriptions of the rule to the row. -/
theorem evaluations_eq (h : s.subscriptions.Registered) (ruleId : ℕ) (row : ρ) :
    s.evaluations ruleId row = ((s.ruleLive ruleId).map LiveSubscriber.row).count row := by
  rw [evaluations, (h.notify_perm row).count_eq, ruleLive, SubscriptionState.liveOf,
    List.count_eq_countP, List.count_eq_countP, List.countP_map, List.countP_map,
    List.countP_filter, List.countP_filter]
  refine List.countP_congr fun l _ => ?_
  simp [and_comm]

theorem Holds.evaluations_eq (h : s.Holds ruleId entries) (hreg : s.subscriptions.Registered)
    (row : ρ) :
    s.evaluations ruleId row = if row ∈ entries.map TriggerEntry.row then 1 else 0 := by
  have hrows : ((s.ruleLive ruleId).map LiveSubscriber.row).Perm
      (entries.map TriggerEntry.row) := by
    have hmap := h.live.map LiveSubscriber.row
    rw [List.map_map] at hmap
    exact hmap
  rw [RuleTriggers.evaluations_eq hreg, hrows.count_eq]
  split
  · rename_i hmem
    exact List.count_eq_one_of_mem h.rows hmem
  · rename_i hmem
    exact List.count_eq_zero.mpr hmem

omit [DecidableEq ρ] in
/-- One more trigger is subscribed. -/
theorem Holds.subscribe (h : s.Holds ruleId entries) {e : TriggerEntry ρ ν}
    (hrow : e.row ∉ entries.map TriggerEntry.row)
    (htrigger : e.trigger ∉ entries.map TriggerEntry.trigger)
    (htokens : t.tokens ruleId = (s.tokens ruleId).insert e.trigger e.token)
    (hlive : t.subscriptions.live = ⟨e.row, e.token, .rule ruleId⟩ :: s.subscriptions.live) :
    t.Holds ruleId (entries ++ [e]) := by
  constructor
  · rw [List.map_append]
    exact List.nodup_append.mpr ⟨h.rows, List.nodup_singleton _, fun a ha b hb hab =>
      hrow (List.mem_singleton.mp hb ▸ hab ▸ ha)⟩
  · rw [List.map_append]
    exact List.nodup_append.mpr ⟨h.triggers, List.nodup_singleton _, fun a ha b hb hab =>
      htrigger (List.mem_singleton.mp hb ▸ hab ▸ ha)⟩
  · intro e' he'
    rw [htokens]
    rcases List.mem_append.mp he' with hold | hnew
    · have hne : e'.trigger ≠ e.trigger := by
        intro heq
        exact htrigger (heq ▸ List.mem_map_of_mem hold)
      rw [AList.lookup_insert_ne hne]
      exact h.lookup e' hold
    · rw [List.mem_singleton.mp hnew]
      exact AList.lookup_insert _
  · intro trigger hmem
    rw [htokens, AList.mem_insert] at hmem
    rw [List.map_append, List.mem_append]
    rcases hmem with rfl | hmem
    · exact .inr (List.mem_singleton.mpr rfl)
    · exact .inl (h.keys trigger hmem)
  · rw [ruleLive, hlive, List.filter_cons_of_pos (by simp), List.map_append]
    exact (h.live.cons _).trans (List.perm_append_singleton _ _).symm

/-- One iteration of `subscribe_rule_triggers`, for a trigger that resolves to a row the rule is
not yet subscribed to. -/
theorem Holds.subscribeTrigger (h : s.Holds ruleId entries) (hreg : s.subscriptions.Registered)
    {trigger : ν} {row : ρ} (hresolve : s.resolve trigger = some row)
    (hnotMem : trigger ∉ entries.map TriggerEntry.trigger)
    (hnotRow : row ∉ entries.map TriggerEntry.row)
    (hfree : (s.subscriptions.liveOf row).length < Signal.maxToken) :
    ∃ next token, next.subscriptions.Registered ∧
      next.Holds ruleId (entries ++ [⟨trigger, row, token⟩]) ∧ s.Frame next ruleId ∧
      (∀ row', row ≠ row' → next.subscriptions.liveOf row' = s.subscriptions.liveOf row') ∧
      ∀ triggers, s.subscribeTriggers ruleId (trigger :: triggers) =
        next.subscribeTriggers ruleId triggers := by
  obtain ⟨sub, token, hsub, hreg', hlive, htoken⟩ :=
    hreg.subscribeRow row (Subscriber.rule ruleId)
  obtain ⟨token, rfl⟩ := Option.isSome_iff_exists.mp (htoken hfree)
  -- the trigger has no entry yet
  have hemplace : emplaceToken (s.tokens ruleId) trigger token =
      (s.tokens ruleId).insert trigger token :=
    if_neg fun hmem => hnotMem (h.keys trigger hmem)
  refine ⟨{ s with
      subscriptions := sub
      tokens := Function.update s.tokens ruleId ((s.tokens ruleId).insert trigger token) },
    token, hreg', ?_, ?_, fun row' hne => ?_, fun triggers => ?_⟩
  · exact h.subscribe (e := ⟨trigger, row, token⟩) hnotRow hnotMem (Function.update_self ..) hlive
  · refine ⟨rfl, rfl, rfl, fun other hne => Function.update_of_ne hne _ _, fun other hne => ?_⟩
    have hfunc : Subscriber.rule ruleId ≠ Subscriber.rule other :=
      fun heq => hne (Subscriber.rule.inj heq).symm
    show sub.live.filter _ = s.subscriptions.live.filter _
    rw [hlive]
    simp [hfunc]
  · show sub.liveOf row' = s.subscriptions.liveOf row'
    rw [SubscriptionState.liveOf, hlive]
    simp [SubscriptionState.liveOf, hne]
  · rw [RuleTriggers.subscribeTriggers, hresolve]
    simp only [hsub, Option.bind_some, Option.getD_some, hemplace]

/-- The loop of `subscribe_rule_triggers`, when all triggers resolve, to different rows. -/
theorem Holds.subscribeTriggers (h : s.Holds ruleId entries)
    (hreg : s.subscriptions.Registered) {triggers : List ν} {rows : List ρ}
    (hresolve : triggers.map s.resolve = rows.map some)
    (hrows : (entries.map TriggerEntry.row ++ rows).Nodup)
    (htriggers : (entries.map TriggerEntry.trigger ++ triggers).Nodup)
    (hfree : ∀ row ∈ rows, (s.subscriptions.liveOf row).length < Signal.maxToken) :
    ∃ t new, s.subscribeTriggers ruleId triggers = some (t, true) ∧
      t.subscriptions.Registered ∧ t.Holds ruleId (entries ++ new) ∧ s.Frame t ruleId ∧
      new.map TriggerEntry.trigger = triggers ∧ new.map TriggerEntry.row = rows := by
  induction triggers generalizing s entries rows with
  | nil =>
    obtain rfl : rows = [] := by simpa using hresolve.symm
    exact ⟨s, [], rfl, hreg, by rwa [List.append_nil], Frame.refl s ruleId, rfl, rfl⟩
  | cons trigger triggers ih =>
    cases rows with
    | nil => simp at hresolve
    | cons row rows =>
      rw [List.map_cons, List.map_cons] at hresolve
      obtain ⟨hhead, htail⟩ := List.cons.inj hresolve
      have hnotMem : trigger ∉ entries.map TriggerEntry.trigger := fun hmem =>
        (List.nodup_append.mp htriggers).2.2 trigger hmem trigger List.mem_cons_self rfl
      have hnotRow : row ∉ entries.map TriggerEntry.row := fun hmem =>
        (List.nodup_append.mp hrows).2.2 row hmem row List.mem_cons_self rfl
      obtain ⟨next, token, hreg', hholds, hframe, hliveOf, hstep⟩ :=
        h.subscribeTrigger hreg hhead hnotMem hnotRow (hfree row List.mem_cons_self)
      have hrows' : ((entries ++ [(⟨trigger, row, token⟩ : TriggerEntry ρ ν)]).map
          TriggerEntry.row ++ rows).Nodup := by
        rw [List.map_append, List.append_assoc]
        exact hrows
      have htriggers' : ((entries ++ [(⟨trigger, row, token⟩ : TriggerEntry ρ ν)]).map
          TriggerEntry.trigger ++ triggers).Nodup := by
        rw [List.map_append, List.append_assoc]
        exact htriggers
      have hfree' : ∀ row' ∈ rows,
          (next.subscriptions.liveOf row').length < Signal.maxToken := by
        intro row' hmem
        -- the new subscription is to another row
        rw [hliveOf row']
        · exact hfree row' (List.mem_cons_of_mem _ hmem)
        · rintro rfl
          exact (List.nodup_cons.mp (List.nodup_append.mp hrows).2.1).1 hmem
      rw [← hframe.resolve] at htail
      obtain ⟨t, new, ht, htreg, htholds, htframe, hnames, hnew⟩ :=
        ih hholds hreg' htail hrows' htriggers' hfree'
      refine ⟨t, ⟨trigger, row, token⟩ :: new, (hstep triggers).trans ht, htreg, ?_,
        hframe.trans htframe, ?_, ?_⟩
      · rw [List.append_assoc] at htholds
        exact htholds
      · rw [List.map_cons, hnames]
      · rw [List.map_cons, hnew]

/-- The subscription of the first entry is taken out, and with it its token. -/
theorem Holds.unsubscribe {e : TriggerEntry ρ ν} (h : s.Holds ruleId (e :: entries))
    (htokens : t.tokens ruleId = (s.tokens ruleId).erase e.trigger)
    (hlive : t.subscriptions.live =
      s.subscriptions.live.filter fun l => ¬(l.row = e.row ∧ l.token = e.token)) :
    t.Holds ruleId entries := by
  obtain ⟨hrow, hrows⟩ := List.nodup_cons.mp h.rows
  obtain ⟨htrigger, htriggers⟩ := List.nodup_cons.mp h.triggers
  refine ⟨hrows, htriggers, fun e' he' => ?_, fun trigger hmem => ?_, ?_⟩
  · have hne : e'.trigger ≠ e.trigger := by
      intro heq
      exact htrigger (heq ▸ List.mem_map_of_mem he')
    rw [htokens, AList.lookup_erase_ne hne]
    exact h.lookup e' (List.mem_cons_of_mem _ he')
  · rw [htokens, AList.mem_erase] at hmem
    exact (List.mem_cons.mp (h.keys trigger hmem.2)).resolve_left hmem.1
  · -- the other entries are for other rows
    have hperm := h.live.filter fun l => decide ¬(l.row = e.row ∧ l.token = e.token)
    rw [List.map_cons, List.filter_cons_of_neg (by simp)] at hperm
    have hkeep : (entries.map fun e => (⟨e.row, e.token, .rule ruleId⟩ :
        LiveSubscriber ρ Subscriber)).filter
          (fun l => decide ¬(l.row = e.row ∧ l.token = e.token)) =
        entries.map fun e => ⟨e.row, e.token, .rule ruleId⟩ := by
      refine List.filter_eq_self.mpr fun l hl => ?_
      obtain ⟨e', he', rfl⟩ := List.mem_map.mp hl
      rw [decide_eq_true_iff]
      rintro ⟨heq, -⟩
      exact hrow (heq ▸ List.mem_map_of_mem he')
    rw [hkeep, ruleLive, List.filter_filter] at hperm
    rw [ruleLive, hlive, List.filter_filter]
    refine List.Perm.trans (List.Perm.of_eq (List.filter_congr fun l _ => ?_)) hperm
    exact Bool.and_comm _ _

/-- The loop of `unsubscribe_rule_triggers`, when each trigger resolves to the row it is
subscribed to. -/
theorem Holds.unsubscribeTriggers (h : s.Holds ruleId entries)
    (hreg : s.subscriptions.Registered)
    (hresolve : ∀ e ∈ entries, s.resolve e.trigger = some e.row) :
    ∃ t, s.unsubscribeTriggers ruleId (entries.map TriggerEntry.trigger) = some (t, true) ∧
      t.subscriptions.Registered ∧ t.Holds ruleId [] ∧ s.Frame t ruleId := by
  induction entries generalizing s with
  | nil => exact ⟨s, rfl, hreg, h, Frame.refl s ruleId⟩
  | cons e entries ih =>
    have hhead := hresolve e List.mem_cons_self
    have htoken := h.lookup e List.mem_cons_self
    obtain ⟨sub, hsub, hreg', hlive⟩ := hreg.unsubscribeRow e.row e.token
    let next : RuleTriggers ρ ν :=
      { s with
        subscriptions := sub
        tokens := Function.update s.tokens ruleId ((s.tokens ruleId).erase e.trigger) }
    -- what is subscribed there is the subscription of the rule
    have hmem : ⟨e.row, e.token, .rule ruleId⟩ ∈ s.subscriptions.live := by
      have hin := h.live.mem_iff.mpr (List.mem_map_of_mem List.mem_cons_self)
      exact List.mem_of_mem_filter hin
    have hframe : s.Frame next ruleId := by
      refine ⟨rfl, rfl, rfl, fun other hne => Function.update_of_ne hne _ _, fun other hne => ?_⟩
      show sub.live.filter _ = s.subscriptions.live.filter _
      rw [hlive, List.filter_filter]
      refine List.filter_congr fun l hl => ?_
      simp only [Bool.and_eq_left_iff_imp, decide_eq_true_eq]
      rintro hfunc ⟨hlrow, hltoken⟩
      have hsame := hreg.func_eq hl hmem hlrow hltoken
      rw [hfunc] at hsame
      exact hne (Subscriber.rule.inj hsame)
    have hholds : next.Holds ruleId entries := h.unsubscribe (Function.update_self ..) hlive
    obtain ⟨t, ht, htreg, htholds, htframe⟩ := ih hholds hreg'
      fun e' he' => hresolve e' (List.mem_cons_of_mem _ he')
    refine ⟨t, ?_, htreg, htholds, hframe.trans htframe⟩
    rw [List.map_cons, RuleTriggers.unsubscribeTriggers, hhead]
    simp only [htoken, Option.getD_some, hsub, Option.bind_some]
    exact ht

/-! ### One step -/

/-- The entries of a rule are for its triggers and the rows they resolved to, or there are none;
there are none after a notification that disables the rule. -/
structure RuleInv (rules : List (ℕ × List ν)) (s : RuleTriggers ρ ν) (ruleId : ℕ)
    (entries : List (TriggerEntry ρ ν)) : Prop where
  holds : s.Holds ruleId entries
  known : entries = [] ∨ rules.lookup ruleId = some (entries.map TriggerEntry.trigger) ∧
    entries.map TriggerEntry.row = s.rows ruleId
  enabled : s.last ruleId = some .enabled → entries.map TriggerEntry.row = s.rows ruleId
  disabled : s.last ruleId = some .disabled → entries = []

structure Inv (rules : List (ℕ × List ν)) (s : RuleTriggers ρ ν) : Prop where
  registered : s.subscriptions.Registered
  rule : ∀ ruleId, ∃ entries, s.RuleInv rules ruleId entries

variable {rules : List (ℕ × List ν)}

theorem inv_init (rules : List (ℕ × List ν)) (resolve : ν → Option ρ) :
    (init resolve).Inv rules := by
  refine ⟨SubscriptionState.registered_init, fun ruleId => ⟨[], ⟨List.nodup_nil, List.nodup_nil,
    fun e he => absurd he List.not_mem_nil, fun trigger hmem => ?_, .nil⟩, .inl rfl,
    fun _ => rfl, fun _ => rfl⟩⟩
  exact absurd hmem (AList.notMem_empty trigger)

theorem Inv.exact (h : s.Inv rules) : s.Exact := by
  intro ruleId
  obtain ⟨entries, hrule⟩ := h.rule ruleId
  refine ⟨fun hlast row => ?_, fun hlast row => ?_⟩
  · rw [hrule.holds.evaluations_eq h.registered, hrule.enabled hlast]
  · rw [hrule.holds.evaluations_eq h.registered, hrule.disabled hlast]
    exact if_neg List.not_mem_nil

omit [DecidableEq ρ] in
/-- The state of a rule, seen through what it depends on. -/
theorem RuleInv.congr (h : s.RuleInv rules ruleId entries)
    (htokens : t.tokens ruleId = s.tokens ruleId)
    (hlive : t.ruleLive ruleId = s.ruleLive ruleId) (hlast : t.last ruleId = s.last ruleId)
    (hrows : t.rows ruleId = s.rows ruleId) : t.RuleInv rules ruleId entries where
  holds := h.holds.congr htokens hlive
  known := by rw [hrows]; exact h.known
  enabled := by rw [hlast, hrows]; exact h.enabled
  disabled := by rw [hlast]; exact h.disabled

/-- What `subscribe_rule_triggers` does under the condition: it subscribes all triggers of a
rule that has no subscriptions, or it fails and changes nothing. -/
theorem Inv.subscribeRuleTriggers (h : s.Inv rules) (hok : s.Resolves rules (.enable ruleId)) :
    s.subscribeRuleTriggers rules ruleId = some (s, false) ∨
      ∃ t entries, s.subscribeRuleTriggers rules ruleId = some (t, true) ∧
        t.subscriptions.Registered ∧ t.Holds ruleId entries ∧ s.Frame t ruleId ∧
        rules.lookup ruleId = some (entries.map TriggerEntry.trigger) ∧
        entries.map TriggerEntry.row = s.triggerRows rules ruleId := by
  rw [RuleTriggers.subscribeRuleTriggers]
  by_cases hnil : (s.tokens ruleId).entries = []
  · rw [if_neg (not_not.mpr hnil)]
    cases hrules : rules.lookup ruleId with
    | none => exact .inl rfl
    | some triggers =>
      obtain ⟨entries, hrule⟩ := h.rule ruleId
      obtain rfl := hrule.holds.tokens_eq_nil_iff.mp hnil
      rcases hok hnil triggers hrules with ⟨trigger, hhead, hnone⟩ | ⟨rows, hmap, hrows, hfree⟩
      · left
        obtain ⟨rest, rfl⟩ : ∃ rest, triggers = trigger :: rest :=
          List.head?_eq_some_iff.mp hhead
        simp only [RuleTriggers.subscribeTriggers, hnone]
      · right
        have htriggers : triggers.Nodup := by
          refine List.Nodup.of_map s.resolve ?_
          rw [hmap]
          exact hrows.map (Option.some_injective ρ)
        obtain ⟨t, new, ht, htreg, htholds, hframe, hnames, hnew⟩ :=
          hrule.holds.subscribeTriggers h.registered hmap hrows htriggers hfree
        refine ⟨t, new, ht, htreg, htholds, hframe, by rw [hnames], ?_⟩
        have hfilter : triggers.filterMap s.resolve = rows := by
          have hid := List.filterMap_map (f := s.resolve) (g := id) (l := triggers)
          rw [hmap, List.filterMap_map] at hid
          simpa using hid.symm
        rw [hnew, triggerRows, hrules, Option.getD_some, hfilter]
  · rw [if_pos hnil]
    exact .inl rfl

/-- What `unsubscribe_rule_triggers` does under the condition: afterwards the rule has no
subscriptions, and if it fails it had none and nothing changes. -/
theorem Inv.unsubscribeRuleTriggers (h : s.Inv rules)
    (hok : s.Resolves rules (.disable ruleId)) :
    (s.unsubscribeRuleTriggers rules ruleId = some (s, false) ∧ s.Holds ruleId []) ∨
      ∃ t, s.unsubscribeRuleTriggers rules ruleId = some (t, true) ∧
        t.subscriptions.Registered ∧ t.Holds ruleId [] ∧ s.Frame t ruleId := by
  obtain ⟨entries, hrule⟩ := h.rule ruleId
  rw [RuleTriggers.unsubscribeRuleTriggers]
  by_cases hnil : (s.tokens ruleId).entries = []
  · rw [if_pos hnil]
    obtain rfl := hrule.holds.tokens_eq_nil_iff.mp hnil
    exact .inl ⟨rfl, hrule.holds⟩
  · rw [if_neg hnil]
    have hlookup := hrule.known.resolve_left fun heq =>
      hnil (hrule.holds.tokens_eq_nil_iff.mpr heq)
    rw [hlookup.1]
    refine .inr (hrule.holds.unsubscribeTriggers h.registered fun e he => ?_)
    have hmap := hok hnil _ hlookup.1
    rw [← hlookup.2, List.map_map, List.map_map, List.map_inj_left] at hmap
    exact hmap e he

section Steps

variable {ruleId : ℕ}

/-- An enable notification. -/
theorem Inv.enable (h : s.Inv rules) (hok : s.Resolves rules (.enable ruleId))
    (ht : s.step rules (.enable ruleId) = some t) : t.Inv rules := by
  rcases h.subscribeRuleTriggers hok with hfail | ⟨u, entries, hu, hreg, hholds, hframe, hrest⟩
  · simp only [RuleTriggers.step, hfail, Option.map_some, Bool.false_eq_true, if_false] at ht
    obtain rfl := Option.some.inj ht
    refine ⟨h.registered, fun other => ?_⟩
    obtain ⟨entries, hrule⟩ := h.rule other
    by_cases hother : other = ruleId
    · subst hother
      -- a failed attempt is no longer an enabling
      refine ⟨entries, hrule.holds.congr rfl rfl, hrule.known, fun hlast => ?_,
        fun hlast => ?_⟩
      · cases (Function.update_self ..).symm.trans hlast
      · cases (Function.update_self ..).symm.trans hlast
    · exact ⟨entries, hrule.congr rfl rfl (Function.update_of_ne hother _ _) rfl⟩
  · simp only [RuleTriggers.step, hu, Option.map_some, if_true] at ht
    obtain rfl := Option.some.inj ht
    obtain ⟨hlookup, hrows⟩ := hrest
    refine ⟨hreg, fun other => ?_⟩
    by_cases hother : other = ruleId
    · subst hother
      have hrecorded : Function.update s.rows other (s.triggerRows rules other) other =
          s.triggerRows rules other := Function.update_self ..
      refine ⟨entries, hholds.congr rfl rfl, .inr ⟨hlookup, hrows.trans hrecorded.symm⟩,
        fun _ => hrows.trans hrecorded.symm, fun hlast => ?_⟩
      cases (Function.update_self ..).symm.trans hlast
    · obtain ⟨entries', hrule⟩ := h.rule other
      exact ⟨entries', hrule.congr (hframe.tokens other hother) (hframe.live other hother)
        (Function.update_of_ne hother _ _) (Function.update_of_ne hother _ _)⟩

/-- A disable notification: the rule has no entries afterwards. -/
theorem Inv.disable (h : s.Inv rules) (hok : s.Resolves rules (.disable ruleId))
    (ht : s.step rules (.disable ruleId) = some t) : t.Inv rules := by
  obtain ⟨u, ok, hu, hreg, hholds, hframe⟩ : ∃ u ok,
      s.unsubscribeRuleTriggers rules ruleId = some (u, ok) ∧ u.subscriptions.Registered ∧
        u.Holds ruleId [] ∧ s.Frame u ruleId := by
    rcases h.unsubscribeRuleTriggers hok with ⟨hfail, hholds⟩ | ⟨u, hu, hreg, hholds, hframe⟩
    · exact ⟨s, false, hfail, h.registered, hholds, Frame.refl s ruleId⟩
    · exact ⟨u, true, hu, hreg, hholds, hframe⟩
  simp only [RuleTriggers.step, hu, Option.map_some] at ht
  obtain rfl := Option.some.inj ht
  refine ⟨hreg, fun other => ?_⟩
  by_cases hother : other = ruleId
  · subst hother
    refine ⟨[], hholds.congr rfl rfl, .inl rfl, fun hlast => ?_, fun _ => rfl⟩
    cases (Function.update_self ..).symm.trans hlast
  · obtain ⟨entries, hrule⟩ := h.rule other
    exact ⟨entries, hrule.congr (hframe.tokens other hother) (hframe.live other hother)
      (Function.update_of_ne hother _ _) (congrFun hframe.rows other)⟩

/-- Other subscribers come and go, which leaves the subscriptions of the rules alone. -/
theorem Inv.setSubscriptions (h : s.Inv rules) {sub : SubscriptionState ρ Subscriber}
    (hreg : sub.Registered)
    (hlive : ∀ other, (sub.live.filter fun l => l.func = Subscriber.rule other) =
      s.subscriptions.live.filter fun l => l.func = Subscriber.rule other) :
    ({ s with subscriptions := sub } : RuleTriggers ρ ν).Inv rules := by
  refine ⟨hreg, fun other => ?_⟩
  obtain ⟨entries, hrule⟩ := h.rule other
  exact ⟨entries, hrule.congr rfl (hlive other) rfl rfl⟩

theorem Inv.unsubscribeOther (h : s.Inv rules) {row : ρ} {token : ℤ}
    (ht : s.step rules (.unsubscribe row token) = some t) : t.Inv rules := by
  obtain ⟨sub, hsub, hreg, hlive⟩ := h.registered.unsubscribeRow row token
  simp only [RuleTriggers.step] at ht
  split at ht
  · cases ht
  · rename_i hlookup
    rw [hsub, Option.map_some] at ht
    obtain rfl := Option.some.inj ht
    refine h.setSubscriptions hreg fun other => ?_
    rw [hlive, List.filter_filter]
    refine List.filter_congr fun l hl => ?_
    simp only [Bool.and_eq_left_iff_imp, decide_eq_true_eq]
    rintro hfunc ⟨rfl, rfl⟩
    -- what is subscribed there is not the subscription of a rule
    have hfound := (h.registered.lookup_eq_some_iff l.row l.token l.func).mpr hl
    rw [hfunc] at hfound
    exact hlookup other hfound

end Steps

/-- Every step that meets the condition keeps the invariant. -/
theorem Inv.step (h : s.Inv rules) {a : RuleTriggerStep ρ ν} (hok : s.Resolves rules a)
    (ht : s.step rules a = some t) : t.Inv rules := by
  cases a with
  | enable ruleId => exact h.enable hok ht
  | disable ruleId => exact h.disable hok ht
  | subscribe row id =>
    obtain ⟨sub, token, hsub, hreg, hlive, -⟩ :=
      h.registered.subscribeRow row (Subscriber.other id)
    simp only [RuleTriggers.step, hsub, Option.map_some] at ht
    obtain rfl := Option.some.inj ht
    refine h.setSubscriptions hreg fun other => ?_
    rw [hlive, List.filter_append]
    cases token <;> simp
  | unsubscribe row token => exact h.unsubscribeOther ht
  | setResolve resolve =>
    obtain rfl := Option.some.inj ht
    refine ⟨h.registered, fun other => ?_⟩
    obtain ⟨entries, hrule⟩ := h.rule other
    exact ⟨entries, hrule.congr rfl rfl rfl rfl⟩

/-- Under the condition a subscription or unsubscription that fails changes nothing. -/
theorem Inv.atomic (h : s.Inv rules) {a : RuleTriggerStep ρ ν} (hok : s.Resolves rules a) :
    s.Atomic rules a := by
  cases a with
  | enable ruleId =>
    intro t ht
    rcases h.subscribeRuleTriggers hok with hfail | ⟨u, entries, hu, -⟩
    · rw [hfail] at ht
      exact (Prod.mk.inj (Option.some.inj ht)).1.symm
    · rw [hu] at ht
      cases ht
  | disable ruleId =>
    intro t ht
    rcases h.unsubscribeRuleTriggers hok with ⟨hfail, -⟩ | ⟨u, hu, -⟩
    · rw [hfail] at ht
      exact (Prod.mk.inj (Option.some.inj ht)).1.symm
    · rw [hu] at ht
      cases ht
  | subscribe row id => trivial
  | unsubscribe row token => trivial
  | setResolve resolve => trivial

/-! ### Whole runs -/

/-- **The trigger subscriptions of rules.** In every run whose steps meet the condition, a rule
that has been enabled is evaluated once for each write to one of its trigger rows, one that has
been disabled is not evaluated, and what fails changes nothing. -/
theorem exact_of_resolves (rules : List (ℕ × List ν)) (resolve : ν → Option ρ)
    (l : List (RuleTriggerStep ρ ν))
    (hok : Guarded (RuleTriggers.step rules) (Resolves rules) (init resolve) l) :
    Always (RuleTriggers.step rules) Exact (init resolve) l ∧
      Guarded (RuleTriggers.step rules) (Atomic rules) (init resolve) l := by
  have hstep : ∀ (s : RuleTriggers ρ ν) a t, s.Inv rules → s.Resolves rules a →
      s.step rules a = some t → t.Inv rules := fun s a t h hok ht => h.step hok ht
  refine ⟨fun l' t hl' ht => ?_, ?_⟩
  · exact (hok.always hstep (inv_init rules resolve) l' t hl' ht).exact
  · exact hok.imp hstep (fun s a h hok => h.atomic hok) (inv_init rules resolve)

/-- Two names for two rows. -/
def twoNames (name : String) : Option ℕ :=
  if name = "a" then some 0 else if name = "b" then some 1 else none

theorem exact_of_resolves_twoNames :
    Guarded (RuleTriggers.step [(7, ["a", "b"])]) (Resolves [(7, ["a", "b"])])
        (init twoNames) [.enable 7, .disable 7] ∧
      Always (RuleTriggers.step [(7, ["a", "b"])]) Exact (init twoNames)
        [.enable 7, .disable 7] ∧
      Guarded (RuleTriggers.step [(7, ["a", "b"])]) (Atomic [(7, ["a", "b"])])
        (init twoNames) [.enable 7, .disable 7] := by
  have hok : Guarded (RuleTriggers.step [(7, ["a", "b"])]) (Resolves [(7, ["a", "b"])])
      (init twoNames) [.enable 7, .disable 7] := by
    refine .cons rfl (fun _ triggers htriggers => .inr ⟨[0, 1], ?_, by decide, ?_⟩)
      (.cons rfl (fun _ triggers htriggers => ?_) trivial)
    · obtain rfl : ["a", "b"] = triggers := Option.some.inj htriggers
      rfl
    · intro row _
      exact (by decide : 0 < Signal.maxToken)
    · obtain rfl : ["a", "b"] = triggers := Option.some.inj htriggers
      rfl
  exact ⟨hok, exact_of_resolves _ _ _ hok⟩

/-- A rule that names a trigger twice is subscribed twice, and evaluated twice when the row is
written. -/
theorem not_exact_repeated :
    ¬ ∀ (rules : List (ℕ × List String)) (resolve : String → Option ℕ)
      (l : List (RuleTriggerStep ℕ String)),
      Always (RuleTriggers.step rules) Exact (init resolve) l ∧
        Guarded (RuleTriggers.step rules) (Atomic rules) (init resolve) l := by
  intro h
  have hexact := (h [(7, ["a", "a"])] twoNames [.enable 7]).1 _ _ List.prefix_rfl rfl
  have htwice := (hexact 7).1 rfl 0
  revert htwice
  decide +kernel

end RuleTriggers

end UtilityFramework
