import Mathlib.Logic.Function.Basic
import UtilityFramework.Lib.Transition
import UtilityFramework.Utils.CallbackHandler
import UtilityFramework.Utils.Signal

/-!
# The registry of row subscriptions

`utils::database::subscriptions`: for each row with subscribers, one disposable callback
and one row callback, made for the first subscriber and registered with the row, and taken
off with the last one. The subscribers' functions are in the signal of the row callback. A
row that is disposed raises its disposable callbacks, which erase its entry.

Callback objects are numbered in order of their creation. `Subscriptions` holds the map of
the class, the two signals of the callback objects, and the callback handlers of the rows.
`none` stands for the exceptions marked unexpected in the source; `Registered` is the
invariant that excludes them.
-/

namespace UtilityFramework

open Transition

variable {ρ φ : Type*} [DecidableEq ρ]

/-- `subscriptions::row_callbacks`. -/
structure RowCallbacks where
  disposableCallback : ℕ
  rowCallback : ℕ

/-- `utils::database::subscriptions` and the rows it registers with. `dataChanged` and
`disposed` are the signals of the row callbacks and of the disposable callbacks (a function
of the latter erases the entry of a row), `created` is the number of callback objects made
so far. -/
structure Subscriptions (ρ φ : Type*) where
  callbacks : ρ → Option RowCallbacks
  created : ℕ
  dataChanged : ℕ → Signal φ
  disposed : ℕ → Signal ρ
  disposableHandler : ρ → CallbackHandler ℕ
  rowHandler : ρ → CallbackHandler ℕ

namespace Subscriptions

/-- No subscriptions, and rows without callbacks. -/
def empty : Subscriptions ρ φ where
  callbacks _ := none
  created := 0
  dataChanged _ := Signal.empty
  disposed _ := Signal.empty
  disposableHandler _ := CallbackHandler.empty
  rowHandler _ := CallbackHandler.empty

/-- The callbacks of a row, new ones if it has no entry. -/
def rowCallbacks (s : Subscriptions ρ φ) (row : ρ) : RowCallbacks :=
  (s.callbacks row).getD ⟨s.created, s.created⟩

/-- The scope guard of `subscribe` for the first subscriber of a row: enter the callbacks
in the map and register them with the row. -/
def enter (s : Subscriptions ρ φ) (row : ρ) (cb : RowCallbacks) : Option (Subscriptions ρ φ) :=
  let disposable := (s.disposableHandler row).addCallback cb.disposableCallback
  let data := (s.rowHandler row).addCallback cb.rowCallback
  if disposable.2 = true ∧ data.2 = true then
    some { s with
      callbacks := Function.update s.callbacks row (some ((s.callbacks row).getD cb))
      disposed := Function.update s.disposed cb.disposableCallback
        ((s.disposed cb.disposableCallback).subscribe row).1
      disposableHandler := Function.update s.disposableHandler row disposable.1
      rowHandler := Function.update s.rowHandler row data.1 }
  else none

/-- `subscribe`, with the token of the new subscription. -/
def subscribe (s : Subscriptions ρ φ) (row : ρ) (f : φ) :
    Option (Subscriptions ρ φ × Option ℤ) :=
  let cb := s.rowCallbacks row
  let r := (s.dataChanged cb.rowCallback).subscribe f
  let s' := { s with
    created := if (s.callbacks row).isSome then s.created else s.created + 1
    dataChanged := Function.update s.dataChanged cb.rowCallback r.1 }
  if r.1.count = 1 then (s'.enter row cb).map fun t => (t, r.2) else some (s', r.2)

/-- The scope guard of `unsubscribe` for the last subscriber of a row: erase the entry and
take its callbacks off the row. -/
def leave (s : Subscriptions ρ φ) (row : ρ) (cb : RowCallbacks) : Option (Subscriptions ρ φ) :=
  let disposable := (s.disposableHandler row).removeCallback cb.disposableCallback
  let data := (s.rowHandler row).removeCallback cb.rowCallback
  if disposable.2 = true ∧ data.2 = true then
    some { s with
      callbacks := Function.update s.callbacks row none
      disposableHandler := Function.update s.disposableHandler row disposable.1
      rowHandler := Function.update s.rowHandler row data.1 }
  else none

/-- `unsubscribe`. -/
def unsubscribe (s : Subscriptions ρ φ) (row : ρ) (token : ℤ) :
    Option (Subscriptions ρ φ × Bool) :=
  match s.callbacks row with
  | none => some (s, false)
  | some cb =>
    let r := (s.dataChanged cb.rowCallback).unsubscribe token
    let s' := { s with dataChanged := Function.update s.dataChanged cb.rowCallback r.1 }
    if r.1.count = 0 then (s'.leave row cb).map fun t => (t, r.2) else some (s', r.2)

/-- The rows whose entries the disposable callbacks of `row` erase. -/
def erasedBy (s : Subscriptions ρ φ) (row : ρ) : List ρ :=
  (s.disposableHandler row).callbacks.flatMap fun d => (s.disposed d).raise

/-- The destruction of a row: its disposable callbacks are raised, and its handlers are
gone with it. -/
def dispose (s : Subscriptions ρ φ) (row : ρ) : Subscriptions ρ φ :=
  { s with
    callbacks := fun r => if r ∈ s.erasedBy row then none else s.callbacks r
    disposableHandler := Function.update s.disposableHandler row CallbackHandler.empty
    rowHandler := Function.update s.rowHandler row CallbackHandler.empty }

/-- The functions invoked when the data of a row changes. -/
def notify (s : Subscriptions ρ φ) (row : ρ) : List φ :=
  (s.rowHandler row).callbacks.flatMap fun c => (s.dataChanged c).raise

/-- The function subscribed to a row under a token. -/
def lookup (s : Subscriptions ρ φ) (row : ρ) (token : ℤ) : Option φ :=
  (s.callbacks row).bind fun cb =>
    ((s.dataChanged cb.rowCallback).subscribers.find? fun p => p.1 = token).map Prod.snd

/-! ### What the operations do to the signals -/

variable {s t : Subscriptions ρ φ} {row : ρ}

/-- Registering callbacks with a row leaves their signals alone. -/
theorem dataChanged_enter {cb : RowCallbacks} (h : s.enter row cb = some t) :
    t.dataChanged = s.dataChanged := by
  rw [enter] at h
  split at h
  · exact (congrArg dataChanged (Option.some.inj h)).symm
  · cases h

theorem dataChanged_leave {cb : RowCallbacks} (h : s.leave row cb = some t) :
    t.dataChanged = s.dataChanged := by
  rw [leave] at h
  split at h
  · exact (congrArg dataChanged (Option.some.inj h)).symm
  · cases h

/-- A subscription adds at most one subscriber to one signal. -/
theorem mem_dataChanged_subscribe {f : φ} {result : Option ℤ}
    (h : s.subscribe row f = some (t, result)) :
    ∃ (c : ℕ) (token : ℤ), ∀ n p, p ∈ (t.dataChanged n).subscribers →
      p ∈ (s.dataChanged n).subscribers ∨ n = c ∧ p = (token, f) := by
  have hdata : t.dataChanged = Function.update s.dataChanged (s.rowCallbacks row).rowCallback
      ((s.dataChanged (s.rowCallbacks row).rowCallback).subscribe f).1 := by
    simp only [subscribe] at h
    split at h
    · obtain ⟨u, hu, hut⟩ := Option.map_eq_some_iff.mp h
      rw [← (Prod.mk.inj hut).1]
      exact dataChanged_enter hu
    · rw [← (Prod.mk.inj (Option.some.inj h)).1]
  obtain ⟨-, hsub⟩ | ⟨token, -, -, -, hperm⟩ :=
    (s.dataChanged (s.rowCallbacks row).rowCallback).subscribe_cases f
  · rw [hsub, Function.update_eq_self] at hdata
    exact ⟨0, 0, fun n p hp => .inl (hdata ▸ hp)⟩
  · refine ⟨(s.rowCallbacks row).rowCallback, token, fun n p hp => ?_⟩
    rw [hdata] at hp
    by_cases hn : n = (s.rowCallbacks row).rowCallback
    · subst hn
      rw [Function.update_self, hperm.mem_iff, List.mem_cons] at hp
      exact hp.symm.imp_right fun hp => ⟨rfl, hp⟩
    · rw [Function.update_of_ne hn] at hp
      exact .inl hp

/-- An unsubscription only takes subscribers away. If it succeeds, it takes away the one
subscribed to the row under the token. -/
theorem mem_dataChanged_unsubscribe {token : ℤ} {ok : Bool}
    (h : s.unsubscribe row token = some (t, ok)) :
    (∀ n p, p ∈ (t.dataChanged n).subscribers → p ∈ (s.dataChanged n).subscribers) ∧
      (ok = true → ∃ c f, s.lookup row token = some f ∧
        (token, f) ∈ (s.dataChanged c).subscribers ∧
        ∀ p ∈ (t.dataChanged c).subscribers, p.1 ≠ token) := by
  rw [unsubscribe] at h
  split at h
  · obtain ⟨rfl, rfl⟩ := Prod.mk.inj (Option.some.inj h)
    exact ⟨fun _ _ hp => hp, fun hf => absurd hf Bool.false_ne_true⟩
  · rename_i cb hcb
    have hdata : t.dataChanged = Function.update s.dataChanged cb.rowCallback
        ((s.dataChanged cb.rowCallback).unsubscribe token).1 ∧
        ((s.dataChanged cb.rowCallback).unsubscribe token).2 = ok := by
      dsimp only at h
      split at h
      · obtain ⟨u, hu, hut⟩ := Option.map_eq_some_iff.mp h
        obtain ⟨rfl, hok⟩ := Prod.mk.inj hut
        exact ⟨dataChanged_leave hu, hok⟩
      · obtain ⟨rfl, hok⟩ := Prod.mk.inj (Option.some.inj h)
        exact ⟨rfl, hok⟩
    obtain ⟨hdata, hok⟩ := hdata
    by_cases hmem : token ∈ (s.dataChanged cb.rowCallback).subscribers.map Prod.fst
    · have hsub := (Signal.unsubscribe_of_mem hmem).2
      constructor
      · intro n p hp
        rw [hdata] at hp
        by_cases hn : n = cb.rowCallback
        · subst hn
          rw [Function.update_self, hsub] at hp
          exact List.mem_of_mem_filter hp
        · rwa [Function.update_of_ne hn] at hp
      · intro _
        obtain ⟨p, hp, hkey⟩ := List.mem_map.mp hmem
        obtain ⟨q, hq⟩ : ∃ q, (s.dataChanged cb.rowCallback).subscribers.find?
            (fun p => p.1 = token) = some q := by
          rw [← Option.isSome_iff_exists, List.find?_isSome]
          exact ⟨p, hp, decide_eq_true hkey⟩
        obtain rfl : q.1 = token := by simpa using List.find?_some hq
        refine ⟨cb.rowCallback, q.2, ?_, List.mem_of_find?_eq_some hq, fun p' hp' => ?_⟩
        · rw [lookup, hcb, Option.bind_some, hq, Option.map_some]
        · rw [hdata, Function.update_self, hsub] at hp'
          exact of_decide_eq_true (List.mem_filter.mp hp').2
    · have hsub := Signal.unsubscribe_of_not_mem hmem
      rw [hsub] at hdata hok
      rw [Function.update_eq_self] at hdata
      refine ⟨fun n p hp => hdata ▸ hp, fun htrue => ?_⟩
      rw [← hok] at htrue
      exact absurd htrue Bool.false_ne_true

end Subscriptions

/-! ### Runs of a registry -/

/-- The operations on a registry and its rows. -/
inductive SubscriptionOp (ρ φ : Type*)
  | subscribe (row : ρ) (f : φ)
  | unsubscribe (row : ρ) (token : ℤ)
  | dispose (row : ρ)

/-- A live subscription: `subscribe` returned a token for it, and it has neither been
unsubscribed nor has its row been disposed. -/
structure LiveSubscriber (ρ φ : Type*) where
  row : ρ
  token : ℤ
  func : φ

/-- A registry with its live subscriptions. -/
structure SubscriptionState (ρ φ : Type*) where
  registry : Subscriptions ρ φ
  live : List (LiveSubscriber ρ φ)

namespace SubscriptionState

/-- A new registry. -/
def init : SubscriptionState ρ φ := ⟨Subscriptions.empty, []⟩

/-- One operation; `none` if it throws. -/
def step (s : SubscriptionState ρ φ) : SubscriptionOp ρ φ → Option (SubscriptionState ρ φ)
  | .subscribe row f =>
    (s.registry.subscribe row f).map fun r =>
      ⟨r.1, (r.2.map fun token => ⟨row, token, f⟩).toList ++ s.live⟩
  | .unsubscribe row token =>
    (s.registry.unsubscribe row token).map fun r =>
      ⟨r.1, if r.2 then s.live.filter fun l => ¬(l.row = row ∧ l.token = token) else s.live⟩
  | .dispose row => some ⟨s.registry.dispose row, s.live.filter fun l => l.row ≠ row⟩

/-- The live subscriptions of a row. -/
def liveOf (s : SubscriptionState ρ φ) (row : ρ) : List (LiveSubscriber ρ φ) :=
  s.live.filter fun l => l.row = row

/-! ### The invariant -/

variable {s t : SubscriptionState ρ φ} {row r : ρ} {cb : RowCallbacks}

/-- A row with the entry `cb`: the two callbacks are the ones registered with the row, the
disposable callback erases the entry of the row, and the signal of the row callback has the
live subscribers, of which there are some. -/
structure RowRegistered (s : SubscriptionState ρ φ) (row : ρ) (cb : RowCallbacks) : Prop where
  disposable : s.registry.disposableHandler row = .singleton cb.disposableCallback
  data : s.registry.rowHandler row = .singleton cb.rowCallback
  disposed : (s.registry.disposed cb.disposableCallback).raise = [row]
  disposable_lt : cb.disposableCallback < s.registry.created
  data_lt : cb.rowCallback < s.registry.created
  live_ne : s.liveOf row ≠ []
  perm : (s.registry.dataChanged cb.rowCallback).subscribers.Perm
    ((s.liveOf row).map fun l => (l.token, l.func))

/-- A row without an entry: no callbacks and no live subscribers. -/
structure RowAbsent (s : SubscriptionState ρ φ) (row : ρ) : Prop where
  disposable : s.registry.disposableHandler row = .empty
  data : s.registry.rowHandler row = .empty
  live : s.liveOf row = []

/-- Every row is registered or absent, no two rows share a callback, and the signals of
callbacks to come are empty. -/
structure Registered (s : SubscriptionState ρ φ) : Prop where
  absent : ∀ row, s.registry.callbacks row = none → s.RowAbsent row
  present : ∀ row cb, s.registry.callbacks row = some cb → s.RowRegistered row cb
  data_inj : ∀ r₁ r₂ c₁ c₂, s.registry.callbacks r₁ = some c₁ →
    s.registry.callbacks r₂ = some c₂ → c₁.rowCallback = c₂.rowCallback → r₁ = r₂
  fresh : ∀ n, s.registry.created ≤ n →
    s.registry.dataChanged n = Signal.empty ∧ s.registry.disposed n = Signal.empty

theorem registered_init : (init : SubscriptionState ρ φ).Registered where
  absent _ _ := ⟨rfl, rfl, rfl⟩
  present _ _ h := by cases h
  data_inj _ _ _ _ h := by cases h
  fresh _ _ := ⟨rfl, rfl⟩

/-- What a registered row depends on. -/
theorem RowRegistered.frame (h : s.RowRegistered r cb)
    (hd : t.registry.disposableHandler r = s.registry.disposableHandler r)
    (hr : t.registry.rowHandler r = s.registry.rowHandler r)
    (hdisp : t.registry.disposed cb.disposableCallback =
      s.registry.disposed cb.disposableCallback)
    (hdata : t.registry.dataChanged cb.rowCallback = s.registry.dataChanged cb.rowCallback)
    (hc : s.registry.created ≤ t.registry.created) (hl : t.liveOf r = s.liveOf r) :
    t.RowRegistered r cb where
  disposable := by rw [hd]; exact h.disposable
  data := by rw [hr]; exact h.data
  disposed := by rw [hdisp]; exact h.disposed
  disposable_lt := h.disposable_lt.trans_le hc
  data_lt := h.data_lt.trans_le hc
  live_ne := by rw [hl]; exact h.live_ne
  perm := by rw [hdata, hl]; exact h.perm

theorem RowAbsent.frame (h : s.RowAbsent r)
    (hd : t.registry.disposableHandler r = s.registry.disposableHandler r)
    (hr : t.registry.rowHandler r = s.registry.rowHandler r) (hl : t.liveOf r = s.liveOf r) :
    t.RowAbsent r where
  disposable := by rw [hd]; exact h.disposable
  data := by rw [hr]; exact h.data
  live := by rw [hl]; exact h.live

/-- The signal of a registered row has a subscriber for each live subscription. -/
theorem RowRegistered.count_eq (h : s.RowRegistered row cb) :
    (s.registry.dataChanged cb.rowCallback).count = (s.liveOf row).length := by
  rw [Signal.count, h.perm.length_eq, List.length_map]

/-! ### Every operation keeps the invariant -/

/-- The next number is not that of a registered row. -/
theorem Registered.rowCallback_ne_created (h : s.Registered)
    (hr : s.registry.callbacks r = some cb) : cb.rowCallback ≠ s.registry.created :=
  (h.present r cb hr).data_lt.ne

/-- The first subscription of a row makes and registers its callbacks. -/
theorem Registered.subscribe_absent (h : s.Registered) (hrow : s.registry.callbacks row = none)
    (f : φ) : ∃ t, s.step (.subscribe row f) = some t ∧ t.Registered := by
  obtain ⟨hd, hr, hl⟩ := h.absent row hrow
  obtain ⟨hdata, hdisp⟩ := h.fresh s.registry.created le_rfl
  have hcb : s.registry.rowCallbacks row = ⟨s.registry.created, s.registry.created⟩ := by
    rw [Subscriptions.rowCallbacks, hrow]
    rfl
  refine ⟨_, by
    simp only [step, Subscriptions.subscribe, hcb, hdata, Signal.subscribe_empty, Signal.count,
      List.length_singleton, if_true, Subscriptions.enter, hd, hr, hdisp,
      CallbackHandler.addCallback_empty, and_self, Option.map_some, hrow, Option.isSome_none,
      Bool.false_eq_true, if_false, Option.getD_none]
    rfl, ?_⟩
  constructor
  · intro r hr'
    dsimp only at hr'
    have hne : r ≠ row := by
      rintro rfl
      simp at hr'
    rw [Function.update_of_ne hne] at hr'
    refine (h.absent r hr').frame ?_ ?_ ?_
    · exact Function.update_of_ne hne _ _
    · exact Function.update_of_ne hne _ _
    · simp [liveOf, hne.symm]
  · intro r c hr'
    dsimp only at hr'
    by_cases hne : r = row
    · subst hne
      rw [Function.update_self, Option.some.injEq] at hr'
      subst hr'
      refine ⟨?_, ?_, ?_, Nat.lt_succ_self _, Nat.lt_succ_self _, ?_, ?_⟩
      · simp
      · simp
      · simp [Signal.raise]
      · simp [liveOf]
      · have hl' : s.live.filter (fun l => decide (l.row = r)) = [] := hl
        simp [liveOf, hl']
    · rw [Function.update_of_ne hne] at hr'
      have hreg := h.present r c hr'
      refine hreg.frame ?_ ?_ ?_ ?_ (Nat.le_succ _) ?_
      · exact Function.update_of_ne hne _ _
      · exact Function.update_of_ne hne _ _
      · exact Function.update_of_ne hreg.disposable_lt.ne _ _
      · exact Function.update_of_ne hreg.data_lt.ne _ _
      · simp [liveOf, Ne.symm hne]
  · intro r₁ r₂ c₁ c₂ h₁ h₂ heq
    dsimp only at h₁ h₂
    by_cases hr₁ : r₁ = row <;> by_cases hr₂ : r₂ = row
    · rw [hr₁, hr₂]
    · rw [hr₁, Function.update_self, Option.some.injEq] at h₁
      rw [Function.update_of_ne hr₂] at h₂
      subst h₁
      exact absurd heq.symm (h.rowCallback_ne_created h₂)
    · rw [hr₂, Function.update_self, Option.some.injEq] at h₂
      rw [Function.update_of_ne hr₁] at h₁
      subst h₂
      exact absurd heq (h.rowCallback_ne_created h₁)
    · rw [Function.update_of_ne hr₁] at h₁
      rw [Function.update_of_ne hr₂] at h₂
      exact h.data_inj r₁ r₂ c₁ c₂ h₁ h₂ heq
  · intro n hn
    have hn' : s.registry.created < n := hn
    obtain ⟨hn₁, hn₂⟩ := h.fresh n hn'.le
    exact ⟨(Function.update_of_ne hn'.ne' _ _).trans hn₁,
      (Function.update_of_ne hn'.ne' _ _).trans hn₂⟩

/-- Replacing the signal of a registered row along with its live subscriptions. -/
theorem Registered.update_signal (h : s.Registered) (hrow : s.registry.callbacks row = some cb)
    {signal : Signal φ} {live : List (LiveSubscriber ρ φ)}
    (hother : ∀ r, r ≠ row → live.filter (fun l => l.row = r) = s.liveOf r)
    (hne : live.filter (fun l => l.row = row) ≠ [])
    (hperm : signal.subscribers.Perm
      ((live.filter fun l => l.row = row).map fun l => (l.token, l.func))) :
    Registered ⟨{ s.registry with
      dataChanged := Function.update s.registry.dataChanged cb.rowCallback signal }, live⟩ := by
  have hreg := h.present row cb hrow
  constructor
  · intro r hr
    have hrr : r ≠ row := by
      rintro rfl
      rw [hrow] at hr
      cases hr
    exact (h.absent r hr).frame rfl rfl (hother r hrr)
  · intro r c hr
    by_cases hrr : r = row
    · subst hrr
      obtain rfl : c = cb := Option.some.inj (hr.symm.trans hrow)
      refine ⟨hreg.disposable, hreg.data, hreg.disposed, hreg.disposable_lt, hreg.data_lt,
        hne, ?_⟩
      simpa [liveOf] using hperm
    · refine (h.present r c hr).frame rfl rfl rfl ?_ le_rfl (hother r hrr)
      exact Function.update_of_ne (fun hc => hrr (h.data_inj r row c cb hr hrow hc)) _ _
  · exact h.data_inj
  · intro n hn
    obtain ⟨hn₁, hn₂⟩ := h.fresh n hn
    exact ⟨(Function.update_of_ne (hreg.data_lt.trans_le hn).ne' _ _).trans hn₁, hn₂⟩

/-- Taking a row out, with its callbacks and its live subscriptions. -/
theorem Registered.remove (h : s.Registered) (row : ρ)
    (hcallbacks : t.registry.callbacks = Function.update s.registry.callbacks row none)
    (hcreated : t.registry.created = s.registry.created)
    (hdisposed : t.registry.disposed = s.registry.disposed)
    (hdata : ∀ n, (∀ c, s.registry.callbacks row = some c → n ≠ c.rowCallback) →
      t.registry.dataChanged n = s.registry.dataChanged n)
    (hdh : t.registry.disposableHandler =
      Function.update s.registry.disposableHandler row CallbackHandler.empty)
    (hrh : t.registry.rowHandler =
      Function.update s.registry.rowHandler row CallbackHandler.empty)
    (hlive : t.liveOf row = []) (hother : ∀ r, r ≠ row → t.liveOf r = s.liveOf r) :
    t.Registered := by
  constructor
  · intro r hr
    by_cases hrr : r = row
    · subst hrr
      exact ⟨by rw [hdh, Function.update_self], by rw [hrh, Function.update_self], hlive⟩
    · rw [hcallbacks, Function.update_of_ne hrr] at hr
      refine (h.absent r hr).frame ?_ ?_ (hother r hrr)
      · rw [hdh, Function.update_of_ne hrr]
      · rw [hrh, Function.update_of_ne hrr]
  · intro r c hr
    have hrr : r ≠ row := by
      rintro rfl
      rw [hcallbacks, Function.update_self] at hr
      cases hr
    rw [hcallbacks, Function.update_of_ne hrr] at hr
    refine (h.present r c hr).frame ?_ ?_ (by rw [hdisposed]) ?_ hcreated.ge (hother r hrr)
    · rw [hdh, Function.update_of_ne hrr]
    · rw [hrh, Function.update_of_ne hrr]
    · exact hdata _ fun c' hc' heq => hrr (h.data_inj r row c c' hr hc' heq)
  · intro r₁ r₂ c₁ c₂ h₁ h₂
    have aux : ∀ r c, t.registry.callbacks r = some c → s.registry.callbacks r = some c := by
      intro r c hr
      rw [hcallbacks] at hr
      by_cases hrr : r = row
      · rw [hrr, Function.update_self] at hr
        cases hr
      · rwa [Function.update_of_ne hrr] at hr
    exact h.data_inj r₁ r₂ c₁ c₂ (aux r₁ c₁ h₁) (aux r₂ c₂ h₂)
  · intro n hn
    rw [hcreated] at hn
    rw [hdisposed]
    refine ⟨(hdata n fun c hc => ?_).trans (h.fresh n hn).1, (h.fresh n hn).2⟩
    exact ((h.present row c hc).data_lt.trans_le hn).ne'

/-- A further subscription of a row only adds to its signal. -/
theorem Registered.subscribe_present (h : s.Registered)
    (hrow : s.registry.callbacks row = some cb) (f : φ) :
    ∃ t, s.step (.subscribe row f) = some t ∧ t.Registered := by
  have hreg := h.present row cb hrow
  have hcb : s.registry.rowCallbacks row = cb := by
    rw [Subscriptions.rowCallbacks, hrow]
    rfl
  have hpos : 0 < (s.registry.dataChanged cb.rowCallback).subscribers.length := by
    have := hreg.count_eq
    rw [Signal.count] at this
    rw [this]
    exact List.length_pos_iff.mpr hreg.live_ne
  simp only [step, Subscriptions.subscribe, hcb, hrow, Option.isSome_some, if_true, Signal.count]
  obtain ⟨hnone, hsub⟩ | ⟨token, -, htoken, -, hperm⟩ :=
    (s.registry.dataChanged cb.rowCallback).subscribe_cases f
  · -- No token is left: there are many subscribers then, and nothing changes.
    have hlen := Signal.one_lt_of_freeToken_eq_none hnone
    simp only [hsub]
    rw [if_neg (by omega)]
    exact ⟨_, rfl, h.update_signal hrow (fun r _ => rfl) hreg.live_ne hreg.perm⟩
  · have hlen := hperm.length_eq
    rw [List.length_cons] at hlen
    rw [if_neg (by omega), htoken]
    refine ⟨_, rfl, h.update_signal hrow (fun r hr => ?_) ?_ ?_⟩
    · simp [liveOf, Ne.symm hr]
    · simp
    · refine hperm.trans ?_
      simpa [liveOf] using hreg.perm.cons (token, f)

/-- Unsubscribing a token that is in use takes out one live subscription. -/
theorem RowRegistered.perm_unsubscribe (h : s.RowRegistered row cb) (token : ℤ) :
    ((s.registry.dataChanged cb.rowCallback).subscribers.filter fun p => p.1 ≠ token).Perm
      (((s.live.filter fun l => ¬(l.row = row ∧ l.token = token)).filter
        fun l => l.row = row).map fun l => (l.token, l.func)) := by
  have hfilter := h.perm.filter fun p => decide (p.1 ≠ token)
  rw [List.filter_map, liveOf, List.filter_filter] at hfilter
  rw [List.filter_filter]
  refine hfilter.trans (List.Perm.of_eq (congrArg _ (List.filter_congr fun l _ => ?_)))
  by_cases hl : l.row = row <;> simp [hl]

theorem liveOf_unsubscribe_of_ne (hr : r ≠ row) (token : ℤ) :
    (s.live.filter fun l => ¬(l.row = row ∧ l.token = token)).filter (fun l => l.row = r) =
      s.liveOf r := by
  rw [List.filter_filter]
  refine List.filter_congr fun l _ => ?_
  by_cases hl : l.row = r
  · simp [hl, hr]
  · simp [hl]

theorem Registered.unsubscribe (h : s.Registered) (row : ρ) (token : ℤ) :
    ∃ t, s.step (.unsubscribe row token) = some t ∧ t.Registered := by
  simp only [step, Subscriptions.unsubscribe]
  cases hrow : s.registry.callbacks row with
  | none => exact ⟨_, rfl, h⟩
  | some cb =>
    have hreg := h.present row cb hrow
    have hcount := hreg.count_eq
    have hpos : 0 < (s.liveOf row).length := List.length_pos_iff.mpr hreg.live_ne
    by_cases hmem : token ∈ (s.registry.dataChanged cb.rowCallback).subscribers.map Prod.fst
    · obtain ⟨htrue, hsub⟩ := Signal.unsubscribe_of_mem hmem
      have hperm := hreg.perm_unsubscribe token
      rw [← hsub] at hperm
      simp only [htrue]
      by_cases hzero : ((s.registry.dataChanged cb.rowCallback).unsubscribe token).1.count = 0
      · -- The last subscriber: the entry goes, and with it the callbacks of the row.
        rw [if_pos hzero, Subscriptions.leave]
        simp only [hreg.disposable, hreg.data, CallbackHandler.removeCallback_singleton, and_self,
          if_true, Option.map_some]
        refine ⟨_, rfl, h.remove row rfl rfl rfl (fun n hn => ?_) rfl rfl ?_
          fun r hr => liveOf_unsubscribe_of_ne hr token⟩
        · exact Function.update_of_ne (hn cb hrow) _ _
        · rw [Signal.count, hperm.length_eq, List.length_map] at hzero
          exact List.eq_nil_of_length_eq_zero hzero
      · rw [if_neg hzero]
        have hne : (s.live.filter fun l => ¬(l.row = row ∧ l.token = token)).filter
            (fun l => l.row = row) ≠ [] := by
          intro hnil
          rw [hnil] at hperm
          exact hzero hperm.length_eq
        exact ⟨_, rfl, h.update_signal hrow (fun r hr => liveOf_unsubscribe_of_ne hr token)
          hne hperm⟩
    · simp only [Signal.unsubscribe_of_not_mem hmem]
      rw [if_neg (by omega)]
      exact ⟨_, rfl, h.update_signal hrow (fun r _ => rfl) hreg.live_ne hreg.perm⟩

theorem Registered.dispose (h : s.Registered) (row : ρ) :
    ∃ t, s.step (.dispose row) = some t ∧ t.Registered := by
  have hcallbacks : (s.registry.dispose row).callbacks =
      Function.update s.registry.callbacks row none := by
    funext r
    rw [Subscriptions.dispose]
    cases hrow : s.registry.callbacks row with
    | none =>
      have herased : s.registry.erasedBy row = [] := by
        rw [Subscriptions.erasedBy, (h.absent row hrow).disposable]
        rfl
      simp only [herased, List.not_mem_nil, if_false]
      by_cases hr : r = row
      · rw [hr, hrow, Function.update_self]
      · rw [Function.update_of_ne hr]
    | some cb =>
      have hreg := h.present row cb hrow
      have herased : s.registry.erasedBy row = [row] := by
        rw [Subscriptions.erasedBy, hreg.disposable]
        simp [CallbackHandler.singleton, hreg.disposed]
      simp only [herased, List.mem_singleton]
      by_cases hr : r = row
      · rw [if_pos hr, hr, Function.update_self]
      · rw [if_neg hr, Function.update_of_ne hr]
  refine ⟨_, rfl, h.remove row hcallbacks rfl rfl (fun _ _ => rfl) rfl rfl ?_
    fun r hr => ?_⟩
  · rw [liveOf, List.filter_filter, List.filter_eq_nil_iff]
    intro l _
    simp
  · rw [liveOf, List.filter_filter]
    refine List.filter_congr fun l _ => ?_
    by_cases hl : l.row = r
    · simp [hl, hr]
    · simp [hl]

/-- Every operation goes through and keeps the invariant. -/
theorem Registered.step (h : s.Registered) (op : SubscriptionOp ρ φ) :
    ∃ t, s.step op = some t ∧ t.Registered := by
  cases op with
  | subscribe row f =>
    cases hrow : s.registry.callbacks row with
    | none => exact h.subscribe_absent hrow f
    | some cb => exact h.subscribe_present hrow f
  | unsubscribe row token => exact h.unsubscribe row token
  | dispose row => exact h.dispose row

/-- Every run goes through and ends in the invariant. -/
theorem Registered.run (h : s.Registered) (ops : List (SubscriptionOp ρ φ)) :
    ∃ t, run SubscriptionState.step s ops = some t ∧ t.Registered := by
  induction ops generalizing s with
  | nil => exact ⟨s, rfl, h⟩
  | cons op ops ih =>
    obtain ⟨u, hu, hreg⟩ := h.step op
    obtain ⟨t, ht, htreg⟩ := ih hreg
    exact ⟨t, run_cons_eq_some.mpr ⟨u, hu, ht⟩, htreg⟩

/-- A change of the data of a row invokes the functions of its live subscribers. -/
theorem Registered.notify_perm (h : s.Registered) (row : ρ) :
    (s.registry.notify row).Perm ((s.liveOf row).map LiveSubscriber.func) := by
  cases hrow : s.registry.callbacks row with
  | none =>
    obtain ⟨-, hr, hl⟩ := h.absent row hrow
    rw [hl, Subscriptions.notify, hr]
    exact List.Perm.nil
  | some cb =>
    have hreg := h.present row cb hrow
    have hnotify : s.registry.notify row = (s.registry.dataChanged cb.rowCallback).raise := by
      rw [Subscriptions.notify, hreg.data]
      exact List.flatMap_singleton _ _
    rw [hnotify, Signal.raise]
    refine (hreg.perm.map Prod.snd).trans (List.Perm.of_eq ?_)
    rw [List.map_map]
    rfl

/-- **The registry of row subscriptions.** Every run of subscriptions, unsubscriptions and
disposals goes through; after it, a row has an entry in the map, its callbacks are the ones
registered with the row, exactly when the row has a live subscriber; a row without one has
no callbacks; and a change of the data of a row invokes the function of each of its live
subscribers exactly once. -/
theorem registry_tracks_live (ops : List (SubscriptionOp ρ φ)) :
    ∃ s : SubscriptionState ρ φ, Transition.run SubscriptionState.step init ops = some s ∧
      ∀ row,
        (s.liveOf row ≠ [] ↔ ∃ cb, s.registry.callbacks row = some cb ∧
          (s.registry.disposableHandler row).callbacks = [cb.disposableCallback] ∧
          (s.registry.rowHandler row).callbacks = [cb.rowCallback]) ∧
        (s.liveOf row = [] ↔ s.registry.callbacks row = none ∧
          (s.registry.disposableHandler row).callbacks = [] ∧
          (s.registry.rowHandler row).callbacks = []) ∧
        (s.registry.notify row).Perm ((s.liveOf row).map LiveSubscriber.func) := by
  obtain ⟨s, hs, h⟩ := registered_init.run ops
  refine ⟨s, hs, fun row => ?_⟩
  cases hrow : s.registry.callbacks row with
  | none =>
    obtain ⟨hd, hr, hl⟩ := h.absent row hrow
    refine ⟨iff_of_false (not_not.mpr hl) ?_, iff_of_true hl ⟨rfl, ?_, ?_⟩, h.notify_perm row⟩
    · rintro ⟨cb, hcb, -⟩
      cases hcb
    · rw [hd]; rfl
    · rw [hr]; rfl
  | some cb =>
    have hreg := h.present row cb hrow
    refine ⟨iff_of_true hreg.live_ne ⟨cb, rfl, ?_, ?_⟩, iff_of_false hreg.live_ne ?_,
      h.notify_perm row⟩
    · rw [hreg.disposable]; rfl
    · rw [hreg.data]; rfl
    · rintro ⟨hcb, -⟩
      cases hcb

end SubscriptionState

end UtilityFramework
