import UtilityFramework.Database.Subscriptions

/-!
# Tokens held by subscribers

A subscriber unsubscribes with the token its `subscribe` call returned, or lets an
`auto_token` or a copy of its `subscription_params` do so. The calls of `subscribe` are
numbered, and the function passed in a call is known by its number; `issued` lists what the
calls returned. An unsubscription names the call whose token it uses, so that one token may
be used any number of times. The parameters of a row subscription are of no use any more
once the row has been disposed; its token may still be passed with the address of the row,
which another row may have by then.

`signal::subscribe` hands out the smallest token that is not in use. A token is `NotStale` as
long as no subscription but the one it was returned for is entered under it.
`removes_iff_notStale`, about a table with entries under keys, is the reason why this is the
exact condition for an unsubscription to do what its holder expects; it is used for the
signal, whose keys are tokens, and for the registry of row subscriptions, whose keys are rows
with tokens.
-/

namespace UtilityFramework

open Transition

/-- Taking out what is entered under `key` is taking out the entry `k`, whose key it is or
was, precisely if nothing else is entered under it. `entered` and `entered'` are the entries
before and after, and `ok` reports whether there was one. -/
theorem removes_iff_notStale {κ : Type*} {entered entered' : κ → ℕ → Prop} {key : κ} {k : ℕ}
    {ok : Bool} (hkey : ∀ key', entered key' k → key' = key)
    (hremoved : ∀ key' f, entered' key' f ↔ entered key' f ∧ key' ≠ key)
    (hok : ok = true ↔ ∃ f, entered key f) :
    ((ok = true ↔ ∃ key', entered key' k) ∧
        ∀ key' f, entered' key' f ↔ entered key' f ∧ f ≠ k) ↔
      ∀ f, entered key f → f = k := by
  constructor
  · rintro ⟨-, h⟩ f hf
    by_contra hne
    exact ((hremoved key f).mp ((h key f).mpr ⟨hf, hne⟩)).2 rfl
  · intro h
    refine ⟨?_, fun key' f => ?_⟩
    · rw [hok]
      constructor
      · rintro ⟨f, hf⟩
        exact ⟨key, h f hf ▸ hf⟩
      · rintro ⟨key', hk⟩
        exact ⟨k, hkey key' hk ▸ hk⟩
    · rw [hremoved]
      refine and_congr_right fun hf => not_congr ⟨fun heq => ?_, fun heq => ?_⟩
      · exact h f (heq ▸ hf)
      · exact hkey key' (heq ▸ hf)

/-! ### Signals -/

/-- A signal, and the tokens its `subscribe` calls returned. -/
structure SignalHolders where
  signal : Signal ℕ
  issued : List (Option ℤ)

/-- A new subscriber, or the use of the token of a call. -/
inductive SignalHoldersOp
  | subscribe
  | unsubscribe (call : ℕ)

namespace SignalHolders

def init : SignalHolders := ⟨Signal.empty, []⟩

/-- The token a call returned, `signal_token_undefined` if there was none left. -/
def token (s : SignalHolders) (call : ℕ) : ℤ := (s.issued.getD call none).getD (-1)

/-- One operation. A token can only be used after it has been returned. -/
def step (s : SignalHolders) : SignalHoldersOp → Option SignalHolders
  | .subscribe =>
    let r := s.signal.subscribe s.issued.length
    some ⟨r.1, s.issued ++ [r.2]⟩
  | .unsubscribe call =>
    if call < s.issued.length then
      some { s with signal := (s.signal.unsubscribe (s.token call)).1 }
    else none

/-- The subscription of a call is entered under a token. -/
def Entered (s : SignalHolders) (token : ℤ) (call : ℕ) : Prop :=
  (token, call) ∈ s.signal.subscribers

/-- The operation does what its holder expects: an unsubscription returns true exactly if
the subscription of the call is live, and takes that one out and no other. -/
def Removes (s : SignalHolders) : SignalHoldersOp → Prop
  | .subscribe => True
  | .unsubscribe call =>
    ((s.signal.unsubscribe (s.token call)).2 = true ↔ ∃ token, s.Entered token call) ∧
      ∀ token f, (token, f) ∈ (s.signal.unsubscribe (s.token call)).1.subscribers ↔
        s.Entered token f ∧ f ≠ call

/-- The token that is used is not held by the subscription of another call. -/
def NotStale (s : SignalHolders) : SignalHoldersOp → Prop
  | .subscribe => True
  | .unsubscribe call => ∀ f, s.Entered (s.token call) f → f = call

/-- Live subscriptions are entered under the tokens their calls returned. -/
def Inv (s : SignalHolders) : Prop :=
  ∀ token f, s.Entered token f → s.issued[f]? = some (some token)

variable {s t : SignalHolders}

theorem inv_init : init.Inv := fun _ _ h => absurd h List.not_mem_nil

theorem Inv.token_eq (h : s.Inv) {token : ℤ} {f : ℕ} (hf : s.Entered token f) :
    token = s.token f := by
  rw [SignalHolders.token, List.getD_eq_getElem?_getD, h token f hf]
  rfl

theorem Inv.step (h : s.Inv) (op : SignalHoldersOp) (ht : s.step op = some t) : t.Inv := by
  cases op with
  | subscribe =>
    obtain rfl := Option.some.inj ht
    intro token f hf
    rcases s.signal.subscribe_cases s.issued.length with ⟨-, hnone⟩ | ⟨new, -, hnew, -, hperm⟩
    · rw [Entered, hnone] at hf
      have hissued := h token f hf
      exact List.getElem?_append_left (List.getElem?_eq_some_iff.mp hissued).1 ▸ hissued
    · rw [Entered, hperm.mem_iff, List.mem_cons] at hf
      rcases hf with heq | hf
      · obtain ⟨rfl, rfl⟩ := Prod.mk.inj heq
        rw [List.getElem?_concat_length, hnew]
      · have hissued := h token f hf
        exact List.getElem?_append_left (List.getElem?_eq_some_iff.mp hissued).1 ▸ hissued
  | unsubscribe call =>
    rw [SignalHolders.step] at ht
    split at ht
    · obtain rfl := Option.some.inj ht
      intro token f hf
      exact h token f ((Signal.mem_unsubscribe _ _ _ _).mp hf).1
    · cases ht

/-- One operation does what its holder expects precisely if its token is not stale. -/
theorem Inv.removes_iff (h : s.Inv) (op : SignalHoldersOp) : s.Removes op ↔ s.NotStale op := by
  cases op with
  | subscribe => exact Iff.rfl
  | unsubscribe call =>
    exact removes_iff_notStale (fun token hk => h.token_eq hk)
      (fun token f => s.signal.mem_unsubscribe (s.token call) token f)
      (s.signal.unsubscribe_eq_true_iff (s.token call))

end SignalHolders

/-! ### Row subscriptions -/

variable {ρ φ : Type*} [DecidableEq ρ]

/-- The result of `unsubscribe` says whether there was a subscription. -/
theorem Subscriptions.unsubscribe_eq_true_iff {s t : Subscriptions ρ φ} {row : ρ} {token : ℤ}
    {ok : Bool} (h : s.unsubscribe row token = some (t, ok)) :
    ok = true ↔ ∃ f, s.lookup row token = some f := by
  rw [unsubscribe] at h
  split at h
  · rename_i hrow
    obtain ⟨-, rfl⟩ := Prod.mk.inj (Option.some.inj h)
    refine iff_of_false Bool.false_ne_true ?_
    rintro ⟨f, hf⟩
    rw [lookup, hrow] at hf
    cases hf
  · rename_i cb hrow
    have hok : ((s.dataChanged cb.rowCallback).unsubscribe token).2 = ok := by
      dsimp only at h
      split at h
      · obtain ⟨u, -, hu⟩ := Option.map_eq_some_iff.mp h
        exact (Prod.mk.inj hu).2
      · exact (Prod.mk.inj (Option.some.inj h)).2
    rw [← hok, Signal.unsubscribe_eq_true_iff, lookup, hrow, Option.bind_some,
      ← Option.isSome_iff_exists, Option.isSome_map, List.find?_isSome]
    constructor
    · rintro ⟨f, hf⟩
      exact ⟨(token, f), hf, decide_eq_true rfl⟩
    · rintro ⟨⟨key, f⟩, hf, hkey⟩
      obtain rfl : key = token := of_decide_eq_true hkey
      exact ⟨f, hf⟩

/-- The live subscriptions are what the registry finds. -/
theorem SubscriptionState.Registered.lookup_eq_some_iff {s : SubscriptionState ρ φ}
    (h : s.Registered) (row : ρ) (token : ℤ) (f : φ) :
    s.registry.lookup row token = some f ↔ ⟨row, token, f⟩ ∈ s.live := by
  have hlive : ⟨row, token, f⟩ ∈ s.live ↔ ⟨row, token, f⟩ ∈ s.liveOf row := by
    simp [SubscriptionState.liveOf]
  rw [hlive, Subscriptions.lookup]
  cases hrow : s.registry.callbacks row with
  | none =>
    rw [(h.absent row hrow).live]
    simp
  | some cb =>
    have hperm := (h.present row cb hrow).perm
    have hmem : (token, f) ∈ (s.registry.dataChanged cb.rowCallback).subscribers ↔
        ⟨row, token, f⟩ ∈ s.liveOf row := by
      rw [hperm.mem_iff, List.mem_map]
      constructor
      · rintro ⟨l, hl, heq⟩
        obtain ⟨rfl, rfl⟩ := Prod.mk.inj heq
        obtain rfl : l.row = row := by
          simpa [SubscriptionState.liveOf] using (List.mem_filter.mp hl).2
        exact hl
      · exact fun hl => ⟨_, hl, rfl⟩
    rw [← hmem, Option.bind_some, Option.map_eq_some_iff]
    constructor
    · rintro ⟨p, hp, rfl⟩
      obtain rfl : p.1 = token := by simpa using List.find?_some hp
      exact List.mem_of_find?_eq_some hp
    · intro hf
      obtain ⟨p, hp⟩ : ∃ p, (s.registry.dataChanged cb.rowCallback).subscribers.find?
          (fun p => p.1 = token) = some p := by
        rw [← Option.isSome_iff_exists, List.find?_isSome]
        exact ⟨(token, f), hf, decide_eq_true rfl⟩
      -- no token is in use twice
      have hinj := List.inj_on_of_nodup_map
        (s.registry.dataChanged cb.rowCallback).keys_nodup
      have hp1 : p.1 = token := by simpa using List.find?_some hp
      obtain rfl := hinj (List.mem_of_find?_eq_some hp) hf hp1
      exact ⟨_, hp, rfl⟩

/-- `subscription_params`. `m_row` is a `disposable_ptr`, `none` once the row has been
disposed; the token is `none` if it is `subscription_token_undefined`. -/
structure SubscriptionParams (ρ : Type*) where
  row : Option ρ
  token : Option ℤ

namespace SubscriptionParams

/-- What `subscribe` returns, `subscription_params()` if there was no token left. -/
def ofToken (row : ρ) (token : Option ℤ) : SubscriptionParams ρ :=
  ⟨token.map fun _ => row, token⟩

/-- `subscription_params::query`: the row and the token, if the row still exists and the
token is defined. -/
def query (p : SubscriptionParams ρ) : Option (ρ × ℤ) :=
  p.row.bind fun row => p.token.map fun token => (row, token)

/-- The parameters after a row has been disposed. -/
def rowDisposed (p : SubscriptionParams ρ) (row : ρ) : SubscriptionParams ρ :=
  { p with row := p.row.filter fun r => r ≠ row }

theorem rowDisposed_of_ne {row r : ρ} (token : ℤ) (h : r ≠ row) :
    (⟨some r, some token⟩ : SubscriptionParams ρ).rowDisposed row = ⟨some r, some token⟩ := by
  rw [rowDisposed, Option.filter_some, if_pos (decide_eq_true h)]

end SubscriptionParams

/-- What the holder of a subscription has: the address of the row it passed and the
parameters it got. -/
structure IssuedParams (ρ : Type*) where
  row : ρ
  params : SubscriptionParams ρ

/-- The address of the row with the token of the parameters. -/
def IssuedParams.key (i : IssuedParams ρ) : ρ × ℤ := (i.row, i.params.token.getD (-1))

/-- A registry with its live subscriptions, and what its `subscribe` calls returned. -/
structure SubscriptionHolders (ρ : Type*) where
  state : SubscriptionState ρ ℕ
  issued : List (IssuedParams ρ)

/-- A new subscriber of a row, the use of the parameters a call returned (by `unsubscribe`
or by an `auto_token`), the use of their token with the address of the row, or the
destruction of a row. A row made later may have the address of one that is gone. -/
inductive SubscriptionHoldersOp (ρ : Type*)
  | subscribe (row : ρ)
  | unsubscribe (call : ℕ)
  | unsubscribeToken (call : ℕ)
  | dispose (row : ρ)

namespace SubscriptionHolders

def init : SubscriptionHolders ρ := ⟨SubscriptionState.init, []⟩

/-- An unsubscription and its result. Where `query` fails nothing is done. -/
def unsubscribe (s : SubscriptionHolders ρ) :
    Option (ρ × ℤ) → Option (SubscriptionHolders ρ × Bool)
  | none => some (s, false)
  | some (row, token) =>
    (s.state.registry.unsubscribe row token).bind fun r =>
      (s.state.step (.unsubscribe row token)).map fun t => ({ s with state := t }, r.2)

/-- One operation. Parameters can only be used after they have been returned. -/
def step (s : SubscriptionHolders ρ) :
    SubscriptionHoldersOp ρ → Option (SubscriptionHolders ρ)
  | .subscribe row =>
    (s.state.registry.subscribe row s.issued.length).bind fun r =>
      (s.state.step (.subscribe row s.issued.length)).map fun t =>
        ⟨t, s.issued ++ [⟨row, .ofToken row r.2⟩]⟩
  | .unsubscribe call =>
    s.issued[call]?.bind fun i => (s.unsubscribe i.params.query).map Prod.fst
  | .unsubscribeToken call =>
    s.issued[call]?.bind fun i => (s.unsubscribe i.key).map Prod.fst
  | .dispose row =>
    (s.state.step (.dispose row)).map fun t =>
      ⟨t, s.issued.map fun i => { i with params := i.params.rowDisposed row }⟩

/-- The subscription of a call is entered for a row under a token. -/
def Entered (s : SubscriptionHolders ρ) (key : ρ × ℤ) (call : ℕ) : Prop :=
  s.state.registry.lookup key.1 key.2 = some call

/-- An unsubscription does what the holder of a call expects: it returns true exactly if
the subscription of the call is live, and takes that one out and no other. -/
def RemovesOnly (s : SubscriptionHolders ρ) (call : ℕ) (key : Option (ρ × ℤ)) : Prop :=
  ∃ t ok, s.unsubscribe key = some (t, ok) ∧
    (ok = true ↔ ∃ key', s.Entered key' call) ∧
      ∀ key' f, t.Entered key' f ↔ s.Entered key' f ∧ f ≠ call

/-- The operation does what its holder expects. -/
def Removes (s : SubscriptionHolders ρ) : SubscriptionHoldersOp ρ → Prop
  | .unsubscribe call => ∀ i, s.issued[call]? = some i → s.RemovesOnly call i.params.query
  | .unsubscribeToken call => ∀ i, s.issued[call]? = some i → s.RemovesOnly call i.key
  | _ => True

/-- The row and the token that are used, if any, are not held by the subscription of
another call. -/
def NotStale (s : SubscriptionHolders ρ) : SubscriptionHoldersOp ρ → Prop
  | .unsubscribe call => ∀ i, s.issued[call]? = some i →
      ∀ key, i.params.query = some key → ∀ f, s.Entered key f → f = call
  | .unsubscribeToken call => ∀ i, s.issued[call]? = some i →
      ∀ f, s.Entered i.key f → f = call
  | _ => True

/-- The registry is as it should be, and live subscriptions are entered under what their
calls returned, which is still valid. -/
structure Inv (s : SubscriptionHolders ρ) : Prop where
  registered : s.state.Registered
  issued : ∀ l ∈ s.state.live,
    s.issued[l.func]? = some ⟨l.row, ⟨some l.row, some l.token⟩⟩

variable {s t : SubscriptionHolders ρ}

theorem inv_init : (init : SubscriptionHolders ρ).Inv :=
  ⟨SubscriptionState.registered_init, fun _ h => absurd h List.not_mem_nil⟩

/-- A step of the registry after which the live subscriptions have been issued. -/
theorem Inv.of_step (h : s.Inv) {state : SubscriptionState ρ ℕ} {op : SubscriptionOp ρ ℕ}
    (hstep : s.state.step op = some state) {issued : List (IssuedParams ρ)}
    (hlive : ∀ l ∈ state.live, issued[l.func]? = some ⟨l.row, ⟨some l.row, some l.token⟩⟩) :
    Inv ⟨state, issued⟩ := by
  obtain ⟨state', hstate', hreg⟩ := h.registered.step op
  rw [hstep] at hstate'
  obtain rfl := Option.some.inj hstate'
  exact ⟨hreg, hlive⟩

theorem live_unsubscribe {state state' : SubscriptionState ρ ℕ} {row : ρ} {token : ℤ}
    (h : state.step (.unsubscribe row token) = some state') :
    ∃ registry ok, state.registry.unsubscribe row token = some (registry, ok) ∧
      state' = ⟨registry, if ok then state.live.filter fun l =>
        ¬(l.row = row ∧ l.token = token) else state.live⟩ := by
  obtain ⟨⟨registry, ok⟩, hr, rfl⟩ := Option.map_eq_some_iff.mp h
  exact ⟨registry, ok, hr, rfl⟩

/-- An unsubscription never throws. -/
theorem Inv.unsubscribe_some (h : s.Inv) (row : ρ) (token : ℤ) :
    ∃ state ok, s.state.step (.unsubscribe row token) = some state ∧
      s.unsubscribe (some (row, token)) = some ({ s with state := state }, ok) ∧
      (ok = true ↔ ∃ f, s.Entered (row, token) f) := by
  obtain ⟨state, hstate, -⟩ := h.registered.step (.unsubscribe row token)
  obtain ⟨registry, ok, hr, -⟩ := live_unsubscribe hstate
  refine ⟨state, ok, hstate, ?_, Subscriptions.unsubscribe_eq_true_iff hr⟩
  rw [SubscriptionHolders.unsubscribe, hr, hstate, Option.bind_some, Option.map_some]

/-- Unsubscriptions keep the invariant: they only take live subscriptions out. -/
theorem Inv.unsubscribe (h : s.Inv) {key : Option (ρ × ℤ)}
    (ht : (s.unsubscribe key).map Prod.fst = some t) : t.Inv := by
  obtain _ | ⟨row, token⟩ := key
  · exact Option.some.inj ht ▸ h
  · obtain ⟨state, ok, hstate, heq, -⟩ := h.unsubscribe_some row token
    rw [heq] at ht
    obtain rfl := Option.some.inj ht
    refine h.of_step hstate fun l hl => h.issued l ?_
    obtain ⟨registry, ok, -, rfl⟩ := live_unsubscribe hstate
    cases ok with
    | true => exact List.mem_of_mem_filter hl
    | false => exact hl

theorem Inv.step (h : s.Inv) (op : SubscriptionHoldersOp ρ) (ht : s.step op = some t) :
    t.Inv := by
  cases op with
  | subscribe row =>
    obtain ⟨⟨registry, token⟩, hr, ht⟩ := Option.bind_eq_some_iff.mp ht
    obtain ⟨state, hstate, rfl⟩ := Option.map_eq_some_iff.mp ht
    refine h.of_step hstate fun l hl => ?_
    rw [SubscriptionState.step, hr, Option.map_some] at hstate
    obtain rfl := Option.some.inj hstate
    rcases List.mem_append.mp hl with hnew | hold
    · obtain ⟨token', rfl, rfl⟩ : ∃ token', token = some token' ∧
          l = ⟨row, token', s.issued.length⟩ := by
        cases token with
        | none => cases hnew
        | some token' => exact ⟨token', rfl, by simpa using hnew⟩
      exact List.getElem?_concat_length
    · have hissued := h.issued l hold
      exact List.getElem?_append_left (List.getElem?_eq_some_iff.mp hissued).1 ▸ hissued
  | unsubscribe call =>
    obtain ⟨i, -, ht⟩ := Option.bind_eq_some_iff.mp ht
    exact h.unsubscribe ht
  | unsubscribeToken call =>
    obtain ⟨i, -, ht⟩ := Option.bind_eq_some_iff.mp ht
    exact h.unsubscribe ht
  | dispose row =>
    rw [SubscriptionHolders.step] at ht
    obtain ⟨state, hstate, rfl⟩ := Option.map_eq_some_iff.mp ht
    refine h.of_step hstate fun l hl => ?_
    obtain rfl := Option.some.inj hstate
    -- the subscriptions that stay live are not of the row
    obtain ⟨hl, hrow⟩ := List.mem_filter.mp hl
    rw [List.getElem?_map, h.issued l hl, Option.map_some,
      SubscriptionParams.rowDisposed_of_ne l.token (of_decide_eq_true hrow)]

theorem Inv.issued_of_entered (h : s.Inv) {key : ρ × ℤ} {f : ℕ} (hf : s.Entered key f) :
    s.issued[f]? = some ⟨key.1, ⟨some key.1, some key.2⟩⟩ :=
  h.issued _ ((h.registered.lookup_eq_some_iff key.1 key.2 f).mp hf)

/-- An unsubscription takes out what is entered under its row and token. -/
theorem Inv.entered_unsubscribe (h : s.Inv) {state : SubscriptionState ρ ℕ} {row : ρ}
    {token : ℤ} (hstate : s.state.step (.unsubscribe row token) = some state)
    (key : ρ × ℤ) (f : ℕ) :
    Entered { s with state := state } key f ↔ s.Entered key f ∧ key ≠ (row, token) := by
  obtain ⟨state', hstate', hreg⟩ := h.registered.step (.unsubscribe row token)
  rw [hstate] at hstate'
  obtain rfl := Option.some.inj hstate'
  rw [Entered, Entered, hreg.lookup_eq_some_iff, h.registered.lookup_eq_some_iff]
  obtain ⟨registry, ok, hr, rfl⟩ := live_unsubscribe hstate
  have hok := Subscriptions.unsubscribe_eq_true_iff hr
  cases ok with
  | true => simp [Prod.ext_iff, imp_iff_not_or]
  | false =>
    -- nothing was entered there
    refine ⟨fun hf => ⟨hf, ?_⟩, fun hf => hf.1⟩
    rintro rfl
    refine Bool.false_ne_true (hok.mpr ⟨f, ?_⟩)
    exact (h.registered.lookup_eq_some_iff row token f).mpr hf

/-- An unsubscription with the key of a live subscription, or for a call whose subscription
is gone with any key, does what is expected precisely if no other subscription is entered
under the key. -/
theorem Inv.removesOnly_iff (h : s.Inv) {call : ℕ} {key : Option (ρ × ℤ)}
    (hkey : ∀ k, s.Entered k call → key = some k) :
    s.RemovesOnly call key ↔ ∀ k, key = some k → ∀ f, s.Entered k f → f = call := by
  obtain _ | ⟨row, token⟩ := key
  · -- nothing is done, and the subscription of the call is not live
    have hno (k : ρ × ℤ) : ¬s.Entered k call := fun hf => by cases hkey k hf
    refine iff_of_true ⟨s, false, rfl, ?_, fun k f => ?_⟩ fun k hk => by cases hk
    · exact iff_of_false Bool.false_ne_true fun ⟨k, hf⟩ => hno k hf
    · refine ⟨fun hf => ⟨hf, ?_⟩, fun hf => hf.1⟩
      rintro rfl
      exact hno k hf
  · obtain ⟨state, ok, hstate, heq, hok⟩ := h.unsubscribe_some row token
    have hiff := removes_iff_notStale (fun k hf => (Option.some.inj (hkey k hf)).symm)
      (h.entered_unsubscribe hstate) hok
    constructor
    · rintro ⟨t, ok', ht, hremoves⟩ k hk
      obtain ⟨rfl, rfl⟩ := Prod.mk.inj (Option.some.inj (heq.symm.trans ht))
      obtain rfl := Option.some.inj hk
      exact hiff.mp hremoves
    · intro hstale
      exact ⟨_, ok, heq, hiff.mpr (hstale _ rfl)⟩

/-- One operation does what its holder expects precisely if what it uses is not stale. -/
theorem Inv.removes_iff (h : s.Inv) (op : SubscriptionHoldersOp ρ) :
    s.Removes op ↔ s.NotStale op := by
  cases op with
  | subscribe row => exact Iff.rfl
  | dispose row => exact Iff.rfl
  | unsubscribe call =>
    refine forall₂_congr fun i hi => h.removesOnly_iff fun k hf => ?_
    obtain rfl := Option.some.inj (hi.symm.trans (h.issued_of_entered hf))
    rfl
  | unsubscribeToken call =>
    refine forall₂_congr fun i hi => (h.removesOnly_iff fun k hf => ?_).trans ?_
    · obtain rfl := Option.some.inj (hi.symm.trans (h.issued_of_entered hf))
      rfl
    · exact ⟨fun hall => hall _ rfl, fun hall k hk => Option.some.inj hk ▸ hall⟩

end SubscriptionHolders

/-! ### Runs -/

/-- **Tokens identify subscriptions as long as they are not stale.** In every run on a
signal, and in every run on a registry of row subscriptions with rows being disposed, all
unsubscriptions do what their holders expect precisely if none uses a token that has passed
to another subscription. -/
theorem removes_iff_notStale_run (acts : List SignalHoldersOp)
    (rowActs : List (SubscriptionHoldersOp ρ)) :
    (Guarded SignalHolders.step SignalHolders.Removes SignalHolders.init acts ↔
        Guarded SignalHolders.step SignalHolders.NotStale SignalHolders.init acts) ∧
      (Guarded SubscriptionHolders.step SubscriptionHolders.Removes
          SubscriptionHolders.init rowActs ↔
        Guarded SubscriptionHolders.step SubscriptionHolders.NotStale
          SubscriptionHolders.init rowActs) := by
  refine ⟨⟨fun h => ?_, fun h => ?_⟩, ⟨fun h => ?_, fun h => ?_⟩⟩
  · exact h.imp (fun _ a _ hs _ ht => SignalHolders.Inv.step hs a ht)
      (fun _ a hs => (SignalHolders.Inv.removes_iff hs a).mp) SignalHolders.inv_init
  · exact h.imp (fun _ a _ hs _ ht => SignalHolders.Inv.step hs a ht)
      (fun _ a hs => (SignalHolders.Inv.removes_iff hs a).mpr) SignalHolders.inv_init
  · exact h.imp (fun _ a _ hs _ ht => SubscriptionHolders.Inv.step hs a ht)
      (fun _ a hs => (SubscriptionHolders.Inv.removes_iff hs a).mp)
      SubscriptionHolders.inv_init
  · exact h.imp (fun _ a _ hs _ ht => SubscriptionHolders.Inv.step hs a ht)
      (fun _ a hs => (SubscriptionHolders.Inv.removes_iff hs a).mpr)
      SubscriptionHolders.inv_init

/-- The first subscriber leaves, a second one gets its token, and the first one's token is
used again: the second subscription is taken out. -/
theorem not_removes_second_use :
    ¬Guarded SignalHolders.step SignalHolders.Removes SignalHolders.init
      [.subscribe, .unsubscribe 0, .subscribe, .unsubscribe 0] := by
  intro h
  obtain ⟨-, h⟩ := h ⟨⟨[(0, 0)], List.nodup_singleton 0⟩, [some 0]⟩ rfl
  obtain ⟨-, h⟩ := h ⟨Signal.empty, [some 0]⟩ rfl
  obtain ⟨-, h⟩ := h ⟨⟨[(0, 1)], List.nodup_singleton 0⟩, [some 0, some 0]⟩ rfl
  obtain ⟨⟨-, h⟩, -⟩ := h ⟨Signal.empty, [some 0, some 0]⟩ rfl
  have hgone := (h 0 1).mpr ⟨List.mem_singleton.mpr rfl, by decide⟩
  exact absurd hgone List.not_mem_nil

end UtilityFramework
