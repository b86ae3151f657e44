import UtilityFramework.Database.Subscriptions

/-!
# The database dispatcher

`utils::database::database_dispatcher_base`: subscribers' functions run on one worker
thread. A subscription wraps its function so that a raise on a producer's thread enqueues a
data action carrying the function; `unsubscribe` is an action on the same queue, waited for
by the caller, unless the caller is the worker itself, where it runs at once.

A write clones the callbacks of the row, then for each of them clones the functions of its
signal, and then enqueues one action for each function: three kinds of steps between which
other threads may run. Subscriptions are numbered, and a function is known by the number of
its subscription.

Unsubscribing takes the function out of the signal, but actions that carry it may still be
queued, or about to be enqueued by a producer that has cloned it; nothing waits for them,
where `remove_timer` runs `sync` after removing. `Drained` says that there are none.
-/

namespace UtilityFramework

open Transition

variable {ρ τ : Type*} [DecidableEq ρ] [DecidableEq τ]

/-! ### The dispatcher -/

/-- The actions on the queue: a `data_action`, or the body of `unsubscribe`. -/
inductive DispatcherAction (ρ τ : Type*)
  | data (sub : ℕ) (payload : List UInt8)
  | unsubscribe (thread : τ) (row : ρ) (token : ℤ)

/-- What a thread outside the dispatcher is doing. -/
inductive ThreadState
  | idle
  /-- Raising the callbacks of a row: the cloned callbacks still to be raised, and the
  cloned functions of the current one still to be invoked. -/
  | raising (payload : List UInt8) (callbacks functions : List ℕ)
  /-- Waiting for its unsubscription to be performed. -/
  | unsubscribing
  /-- The unsubscription has been performed, with the subscription it removed. -/
  | unsubscribed (removed : Option ℕ)

/-- The functions a thread has cloned and is still to enqueue. -/
def ThreadState.functions : ThreadState → List ℕ
  | .raising _ _ functions => functions
  | _ => []

/-- The observable events: a function is invoked; `unsubscribe` returns, with the
subscription it removed if it returns true. -/
inductive DispatcherEvent
  | invoked (sub : ℕ) (payload : List UInt8)
  | returned (removed : Option ℕ)

/-- A dispatcher with the threads that use it. -/
structure Dispatcher (ρ τ : Type*) where
  subscriptions : Subscriptions ρ ℕ
  subscribed : ℕ
  threads : τ → ThreadState
  queue : List (DispatcherAction ρ τ)
  log : List DispatcherEvent

/-- The atomic steps. -/
inductive DispatcherStep (ρ τ : Type*)
  | subscribe (thread : τ) (row : ρ)
  | write (thread : τ) (row : ρ) (payload : List UInt8)
  | raiseSignal (thread : τ)
  | enqueue (thread : τ)
  | finishWrite (thread : τ)
  | unsubscribe (thread : τ) (row : ρ) (token : ℤ)
  | returnUnsubscribe (thread : τ)
  | work
  | unsubscribeOnWorker (row : ρ) (token : ℤ)

namespace Dispatcher

/-- A dispatcher without subscriptions. -/
def init : Dispatcher ρ τ := ⟨Subscriptions.empty, 0, fun _ => .idle, [], []⟩

/-- The body of `unsubscribe`, with the subscription it removed. -/
def performUnsubscribe (s : Dispatcher ρ τ) (row : ρ) (token : ℤ) :
    Option (Subscriptions ρ ℕ × Option ℕ) :=
  (s.subscriptions.unsubscribe row token).map fun r =>
    (r.1, if r.2 then s.subscriptions.lookup row token else none)

/-- One atomic step of a thread or of the worker. -/
def step (s : Dispatcher ρ τ) : DispatcherStep ρ τ → Option (Dispatcher ρ τ)
  | .subscribe thread row =>
    match s.threads thread with
    | .idle => (s.subscriptions.subscribe row s.subscribed).map fun r =>
        { s with subscriptions := r.1, subscribed := s.subscribed + 1 }
    | _ => none
  | .write thread row payload =>
    match s.threads thread with
    | .idle => some { s with
        threads := Function.update s.threads thread
          (.raising payload (s.subscriptions.rowHandler row).callbacks []) }
    | _ => none
  | .raiseSignal thread =>
    match s.threads thread with
    | .raising payload (c :: cs) [] => some { s with
        threads := Function.update s.threads thread
          (.raising payload cs (s.subscriptions.dataChanged c).raise) }
    | _ => none
  | .enqueue thread =>
    match s.threads thread with
    | .raising payload cs (f :: fs) => some { s with
        threads := Function.update s.threads thread (.raising payload cs fs)
        queue := s.queue ++ [.data f payload] }
    | _ => none
  | .finishWrite thread =>
    match s.threads thread with
    | .raising _ [] [] => some { s with threads := Function.update s.threads thread .idle }
    | _ => none
  | .unsubscribe thread row token =>
    match s.threads thread with
    | .idle => some { s with
        threads := Function.update s.threads thread .unsubscribing
        queue := s.queue ++ [.unsubscribe thread row token] }
    | _ => none
  | .returnUnsubscribe thread =>
    match s.threads thread with
    | .unsubscribed removed => some { s with
        threads := Function.update s.threads thread .idle
        log := s.log ++ [.returned removed] }
    | _ => none
  | .work =>
    match s.queue with
    | [] => none
    | .data f payload :: queue => some { s with
        queue := queue
        log := s.log ++ [.invoked f payload] }
    | .unsubscribe thread row token :: queue =>
      (s.performUnsubscribe row token).map fun r => { s with
        subscriptions := r.1
        threads := Function.update s.threads thread (.unsubscribed r.2)
        queue := queue }
  | .unsubscribeOnWorker row token =>
    (s.performUnsubscribe row token).map fun r => { s with
      subscriptions := r.1
      log := s.log ++ [.returned r.2] }

/-- No function is invoked after the `unsubscribe` that removed it has returned. -/
def NoLateCall (s : Dispatcher ρ τ) : Prop :=
  s.log.Pairwise fun earlier later =>
    ∀ f payload, later = .invoked f payload → earlier ≠ .returned (some f)

/-- No action that carries the function is queued or about to be enqueued. -/
def Drained (s : Dispatcher ρ τ) (f : ℕ) : Prop :=
  (∀ payload, DispatcherAction.data f payload ∉ s.queue) ∧
    ∀ thread, f ∉ (s.threads thread).functions

/-- When an `unsubscribe` that removed a function returns, the function is drained. -/
def ReturnsDrained (s : Dispatcher ρ τ) : DispatcherStep ρ τ → Prop
  | .returnUnsubscribe thread =>
    ∀ f, s.threads thread = .unsubscribed (some f) → s.Drained f
  | .unsubscribeOnWorker row token =>
    ∀ f, s.subscriptions.lookup row token = some f → s.Drained f
  | _ => True

/-! ### The invariant -/

/-- The function is in no signal, and never will be again. -/
def Removed (s : Dispatcher ρ τ) (f : ℕ) : Prop :=
  f < s.subscribed ∧ ∀ n, ∀ p ∈ (s.subscriptions.dataChanged n).subscribers, p.2 ≠ f

/-- Functions in signals are numbered below the next subscription, each is in one signal
under one token, those of performed unsubscriptions are removed, and those of returned ones
are drained too. -/
structure Inv (s : Dispatcher ρ τ) : Prop where
  lt : ∀ n, ∀ p ∈ (s.subscriptions.dataChanged n).subscribers, p.2 < s.subscribed
  unique : ∀ n m, ∀ p ∈ (s.subscriptions.dataChanged n).subscribers,
    ∀ q ∈ (s.subscriptions.dataChanged m).subscribers, p.2 = q.2 → n = m ∧ p.1 = q.1
  performed : ∀ thread f, s.threads thread = .unsubscribed (some f) → s.Removed f
  returned : ∀ f, .returned (some f) ∈ s.log → s.Removed f ∧ s.Drained f
  noLate : s.NoLateCall

variable {s t : Dispatcher ρ τ}

omit [DecidableEq ρ] [DecidableEq τ] in
theorem inv_init : (init : Dispatcher ρ τ).Inv where
  lt _ _ h := absurd h List.not_mem_nil
  unique _ _ _ h := absurd h List.not_mem_nil
  performed _ _ h := by cases h
  returned _ h := absurd h List.not_mem_nil
  noLate := List.Pairwise.nil

omit [DecidableEq ρ] [DecidableEq τ] in
/-- Removal depends on the signals and the counter only. -/
theorem Removed.of_le {f : ℕ} (h : s.Removed f) (hle : s.subscribed ≤ t.subscribed)
    (hsub : ∀ n, ∀ p ∈ (t.subscriptions.dataChanged n).subscribers,
      p ∈ (s.subscriptions.dataChanged n).subscribers ∨ p.2 = s.subscribed) :
    t.Removed f := by
  refine ⟨h.1.trans_le hle, fun n p hp => ?_⟩
  obtain hp | hp := hsub n p hp
  · exact h.2 n p hp
  · exact fun heq => absurd (hp ▸ heq ▸ h.1) (lt_irrefl _)

omit [DecidableEq ρ] in
/-- A thread that moves on with functions it had before keeps what is drained. -/
theorem Drained.of_thread {f : ℕ} (h : s.Drained f) {thread : τ} {state : ThreadState}
    (hq : ∀ payload, DispatcherAction.data f payload ∉ t.queue)
    (ht : t.threads = Function.update s.threads thread state) (hf : f ∉ state.functions) :
    t.Drained f := by
  refine ⟨hq, fun other => ?_⟩
  rw [ht]
  by_cases ho : other = thread
  · rw [ho, Function.update_self]
    exact hf
  · rw [Function.update_of_ne ho]
    exact h.2 other

omit [DecidableEq ρ] in
/-- A step of one thread that changes neither the signals nor the log, and gives the thread
and the queue no drained function. -/
theorem Inv.of_thread (h : s.Inv) {thread : τ} {state : ThreadState}
    (hsub : t.subscriptions = s.subscriptions) (hn : t.subscribed = s.subscribed)
    (hlog : t.log = s.log) (ht : t.threads = Function.update s.threads thread state)
    (hstate : ∀ f, state ≠ .unsubscribed (some f))
    (hdrained : ∀ f, s.Removed f → s.Drained f →
      (∀ payload, DispatcherAction.data f payload ∉ t.queue) ∧ f ∉ state.functions) :
    t.Inv := by
  have hremoved : ∀ f, s.Removed f → t.Removed f := fun f hf =>
    hf.of_le hn.ge fun n p hp => .inl (hsub ▸ hp)
  refine ⟨?_, ?_, ?_, ?_, ?_⟩
  · rw [hsub, hn]; exact h.lt
  · rw [hsub]; exact h.unique
  · intro other f hf
    rw [ht] at hf
    by_cases ho : other = thread
    · rw [ho, Function.update_self] at hf
      exact absurd hf (hstate f)
    · rw [Function.update_of_ne ho] at hf
      exact hremoved f (h.performed other f hf)
  · intro f hf
    rw [hlog] at hf
    obtain ⟨hrem, hdr⟩ := h.returned f hf
    obtain ⟨hq, hfun⟩ := hdrained f hrem hdr
    exact ⟨hremoved f hrem, hdr.of_thread hq ht hfun⟩
  · rw [NoLateCall, hlog]; exact h.noLate

omit [DecidableEq τ] in
/-- An unsubscription that is performed only takes functions out of the signals; the one it
reports is the one subscribed under the token, and is in no signal afterwards. -/
theorem Inv.performUnsubscribe (h : s.Inv) {row : ρ} {token : ℤ}
    {subscriptions : Subscriptions ρ ℕ} {removed : Option ℕ}
    (hp : s.performUnsubscribe row token = some (subscriptions, removed)) :
    (∀ n, ∀ p ∈ (subscriptions.dataChanged n).subscribers,
      p ∈ (s.subscriptions.dataChanged n).subscribers) ∧
    ∀ f, removed = some f → s.subscriptions.lookup row token = some f ∧ f < s.subscribed ∧
      ∀ n, ∀ p ∈ (subscriptions.dataChanged n).subscribers, p.2 ≠ f := by
  rw [Dispatcher.performUnsubscribe] at hp
  obtain ⟨⟨u, ok⟩, hu, heq⟩ := Option.map_eq_some_iff.mp hp
  obtain ⟨rfl, rfl⟩ := Prod.mk.inj heq
  obtain ⟨hsub, hok⟩ := Subscriptions.mem_dataChanged_unsubscribe hu
  refine ⟨hsub, fun f hf => ?_⟩
  cases ok with
  | false => cases hf
  | true =>
    obtain ⟨c, g, hlookup, hmem, hgone⟩ := hok rfl
    rw [if_pos rfl] at hf
    obtain rfl : g = f := Option.some.inj (hlookup.symm.trans hf)
    refine ⟨hlookup, h.lt c _ hmem, fun n p hp heq => ?_⟩
    -- The function is under one token of one signal only, and that is the one taken out.
    obtain ⟨rfl, htoken⟩ := h.unique n c p (hsub n p hp) _ hmem heq
    exact hgone p hp htoken

/-! ### Steps -/

theorem Inv.subscribe (h : s.Inv) {thread : τ} {row : ρ}
    (ht : s.step (.subscribe thread row) = some t) : t.Inv := by
  rw [step] at ht
  split at ht
  · obtain ⟨⟨u, result⟩, hu, rfl⟩ := Option.map_eq_some_iff.mp ht
    obtain ⟨c, token, hmem⟩ := Subscriptions.mem_dataChanged_subscribe hu
    have hremoved : ∀ f, s.Removed f →
        Removed { s with subscriptions := u, subscribed := s.subscribed + 1 } f := fun f hf =>
      hf.of_le (Nat.le_succ _) fun n p hp =>
        (hmem n p hp).imp_right fun hp => by rw [hp.2]
    refine ⟨fun n p hp => ?_, fun n m p hp q hq heq => ?_, fun other f hf => ?_,
      fun f hf => ?_, h.noLate⟩
    · obtain hp | ⟨-, rfl⟩ := hmem n p hp
      · exact (h.lt n p hp).trans (Nat.lt_succ_self _)
      · exact Nat.lt_succ_self _
    · -- The new function differs from all functions subscribed before.
      obtain hp' | ⟨hn, rfl⟩ := hmem n p hp <;> obtain hq' | ⟨hm, rfl⟩ := hmem m q hq
      · exact h.unique n m p hp' q hq' heq
      · exact absurd heq (h.lt n p hp').ne
      · exact absurd heq.symm (h.lt m q hq').ne
      · exact ⟨hn.trans hm.symm, rfl⟩
    · exact hremoved f (h.performed other f hf)
    · exact ⟨hremoved f (h.returned f hf).1, (h.returned f hf).2⟩
  · cases ht

theorem Inv.write (h : s.Inv) {thread : τ} {row : ρ} {payload : List UInt8}
    (ht : s.step (.write thread row payload) = some t) : t.Inv := by
  rw [step] at ht
  split at ht
  · obtain rfl := Option.some.inj ht
    exact h.of_thread rfl rfl rfl rfl (fun f hf => by cases hf)
      fun f _ hdr => ⟨hdr.1, List.not_mem_nil⟩
  · cases ht

/-- A raise clones functions that are in a signal, none of which has been removed. -/
theorem Inv.raiseSignal (h : s.Inv) {thread : τ}
    (ht : s.step (.raiseSignal thread) = some t) : t.Inv := by
  rw [step] at ht
  split at ht
  · rename_i payload c cs _
    obtain rfl := Option.some.inj ht
    refine h.of_thread rfl rfl rfl rfl (fun f hf => by cases hf)
      fun f hrem hdr => ⟨hdr.1, fun hf => ?_⟩
    obtain ⟨p, hp, rfl⟩ := List.mem_map.mp hf
    exact hrem.2 c p hp rfl
  · cases ht

theorem Inv.enqueue (h : s.Inv) {thread : τ}
    (ht : s.step (.enqueue thread) = some t) : t.Inv := by
  rw [step] at ht
  split at ht
  · rename_i payload cs f fs hthread
    obtain rfl := Option.some.inj ht
    refine h.of_thread rfl rfl rfl rfl (fun f hf => by cases hf) fun g _ hdr => ?_
    have hg := hdr.2 thread
    rw [hthread] at hg
    refine ⟨fun payload' hmem => ?_, fun hmem => hg (List.mem_cons_of_mem _ hmem)⟩
    obtain hmem | hmem := List.mem_append.mp hmem
    · exact hdr.1 payload' hmem
    · cases List.mem_singleton.mp hmem
      exact hg List.mem_cons_self
  · cases ht

theorem Inv.finishWrite (h : s.Inv) {thread : τ}
    (ht : s.step (.finishWrite thread) = some t) : t.Inv := by
  rw [step] at ht
  split at ht
  · obtain rfl := Option.some.inj ht
    exact h.of_thread rfl rfl rfl rfl (fun f hf => by cases hf)
      fun f _ hdr => ⟨hdr.1, List.not_mem_nil⟩
  · cases ht

theorem Inv.unsubscribe (h : s.Inv) {thread : τ} {row : ρ} {token : ℤ}
    (ht : s.step (.unsubscribe thread row token) = some t) : t.Inv := by
  rw [step] at ht
  split at ht
  · obtain rfl := Option.some.inj ht
    refine h.of_thread rfl rfl rfl rfl (fun f hf => by cases hf)
      fun f _ hdr => ⟨fun payload hmem => ?_, List.not_mem_nil⟩
    obtain hmem | hmem := List.mem_append.mp hmem
    · exact hdr.1 payload hmem
    · cases List.mem_singleton.mp hmem
  · cases ht

omit [DecidableEq ρ] [DecidableEq τ] in
/-- A return is no invocation. -/
theorem NoLateCall.returned (h : s.NoLateCall) (removed : Option ℕ)
    (hlog : t.log = s.log ++ [.returned removed]) : t.NoLateCall := by
  rw [NoLateCall, hlog, List.pairwise_append]
  refine ⟨h, List.pairwise_singleton _ _, fun e _ e' he' f payload hinv => ?_⟩
  cases List.mem_singleton.mp he'
  cases hinv

theorem Inv.returnUnsubscribe (h : s.Inv) {thread : τ}
    (hok : s.ReturnsDrained (.returnUnsubscribe thread))
    (ht : s.step (.returnUnsubscribe thread) = some t) : t.Inv := by
  rw [step] at ht
  split at ht
  · rename_i removed hthread
    obtain rfl := Option.some.inj ht
    refine ⟨h.lt, h.unique, fun other f hf => ?_, fun f hf => ?_, h.noLate.returned removed rfl⟩
    · dsimp only at hf
      by_cases ho : other = thread
      · rw [ho, Function.update_self] at hf
        cases hf
      · rw [Function.update_of_ne ho] at hf
        exact h.performed other f hf
    · have hboth : s.Removed f ∧ s.Drained f := by
        obtain hf | hf := List.mem_append.mp hf
        · exact h.returned f hf
        · cases List.mem_singleton.mp hf
          exact ⟨h.performed thread f hthread, hok f hthread⟩
      exact ⟨hboth.1, hboth.2.of_thread hboth.2.1 rfl List.not_mem_nil⟩
  · cases ht

omit [DecidableEq ρ] [DecidableEq τ] in
/-- The first queued function is not among those drained, so invoking it is not late. -/
theorem Inv.work_data (h : s.Inv) {f : ℕ} {payload : List UInt8}
    {queue : List (DispatcherAction ρ τ)} (hq : s.queue = .data f payload :: queue) :
    Inv { s with queue := queue, log := s.log ++ [.invoked f payload] } := by
  refine ⟨h.lt, h.unique, h.performed, fun g hg => ?_, ?_⟩
  · obtain hg | hg := List.mem_append.mp hg
    · obtain ⟨hrem, hdr⟩ := h.returned g hg
      refine ⟨hrem, fun payload' hmem => hdr.1 payload' ?_, hdr.2⟩
      rw [hq]
      exact List.mem_cons_of_mem _ hmem
    · cases List.mem_singleton.mp hg
  · refine List.pairwise_append.mpr ⟨h.noLate, List.pairwise_singleton _ _, ?_⟩
    intro e he e' he' g payload' hinv hret
    obtain rfl := List.mem_singleton.mp he'
    cases hinv
    subst hret
    refine (h.returned f he).2.1 payload ?_
    rw [hq]
    exact List.mem_cons_self

theorem Inv.work (h : s.Inv) (ht : s.step .work = some t) : t.Inv := by
  rw [step] at ht
  split at ht
  · cases ht
  · rename_i f payload queue hq
    obtain rfl := Option.some.inj ht
    exact h.work_data hq
  · rename_i thread row token queue hq
    obtain ⟨⟨u, removed⟩, hu, rfl⟩ := Option.map_eq_some_iff.mp ht
    obtain ⟨hsub, hgone⟩ := h.performUnsubscribe hu
    refine ⟨fun n p hp => h.lt n p (hsub n p hp),
      fun n m p hp q hq => h.unique n m p (hsub n p hp) q (hsub m q hq),
      fun other f hf => ?_, fun f hf => ?_, h.noLate⟩
    · dsimp only at hf
      by_cases ho : other = thread
      · rw [ho, Function.update_self, ThreadState.unsubscribed.injEq] at hf
        exact (hgone f hf).2
      · rw [Function.update_of_ne ho] at hf
        exact (h.performed other f hf).of_le le_rfl fun n p hp => .inl (hsub n p hp)
    · obtain ⟨hrem, hdr⟩ := h.returned f hf
      refine ⟨hrem.of_le le_rfl fun n p hp => .inl (hsub n p hp),
        hdr.of_thread (fun payload hmem => hdr.1 payload ?_) rfl List.not_mem_nil⟩
      rw [hq]
      exact List.mem_cons_of_mem _ hmem

theorem Inv.unsubscribeOnWorker (h : s.Inv) {row : ρ} {token : ℤ}
    (hok : s.ReturnsDrained (.unsubscribeOnWorker row token))
    (ht : s.step (.unsubscribeOnWorker row token) = some t) : t.Inv := by
  rw [step] at ht
  obtain ⟨⟨u, removed⟩, hu, rfl⟩ := Option.map_eq_some_iff.mp ht
  obtain ⟨hsub, hgone⟩ := h.performUnsubscribe hu
  have hremoved : ∀ f, s.Removed f →
      Removed { s with subscriptions := u, log := s.log ++ [.returned removed] } f :=
    fun f hf => hf.of_le le_rfl fun n p hp => .inl (hsub n p hp)
  refine ⟨fun n p hp => h.lt n p (hsub n p hp),
    fun n m p hp q hq => h.unique n m p (hsub n p hp) q (hsub m q hq),
    fun other f hf => hremoved f (h.performed other f hf), fun f hf => ?_,
    h.noLate.returned removed rfl⟩
  obtain hf | hf := List.mem_append.mp hf
  · exact ⟨hremoved f (h.returned f hf).1, (h.returned f hf).2⟩
  · cases List.mem_singleton.mp hf
    obtain ⟨hlookup, hremoved'⟩ := hgone f rfl
    exact ⟨hremoved', hok f hlookup⟩

/-- A step whose returns are drained keeps the invariant. -/
theorem Inv.step (h : s.Inv) (a : DispatcherStep ρ τ) (hok : s.ReturnsDrained a)
    (ht : s.step a = some t) : t.Inv := by
  cases a with
  | subscribe thread row => exact h.subscribe ht
  | write thread row payload => exact h.write ht
  | raiseSignal thread => exact h.raiseSignal ht
  | enqueue thread => exact h.enqueue ht
  | finishWrite thread => exact h.finishWrite ht
  | unsubscribe thread row token => exact h.unsubscribe ht
  | returnUnsubscribe thread => exact h.returnUnsubscribe hok ht
  | work => exact h.work ht
  | unsubscribeOnWorker row token => exact h.unsubscribeOnWorker hok ht

/-- **No callback after unsubscribe.** In every interleaving in which an `unsubscribe` that
removed a function returns only when no action carrying it is queued or about to be
enqueued, no function is ever invoked after the `unsubscribe` that removed it has
returned. -/
theorem noLateCall_of_returnsDrained {acts : List (DispatcherStep ρ τ)}
    (h : Guarded step ReturnsDrained init acts) : Always step NoLateCall init acts := by
  have hinv : Always step Inv (init : Dispatcher ρ τ) acts :=
    h.always (fun _ a _ hs hok => hs.step a hok) inv_init
  exact fun l' t hl' ht => (hinv l' t hl' ht).noLate

/-- A write and its invocation, and then an unsubscription. -/
theorem noLateCall_of_returnsDrained_write :
    Always step NoLateCall (init : Dispatcher Unit ℕ)
      [.subscribe 0 (), .write 0 () [7], .raiseSignal 0, .enqueue 0, .work,
        .unsubscribe 1 () 0, .work, .returnUnsubscribe 1] := by
  refine noLateCall_of_returnsDrained (.cons rfl trivial <| .cons rfl trivial <|
    .cons rfl trivial <| .cons rfl trivial <| .cons rfl trivial <| .cons rfl trivial <|
    .cons rfl trivial <| .cons rfl (fun f _ => ⟨fun _ => List.not_mem_nil, ?_⟩) trivial)
  intro thread
  match thread with
  | 0 => exact List.not_mem_nil
  | 1 => exact List.not_mem_nil
  | _ + 2 => exact List.not_mem_nil

/-- A write between the request and the performance of the unsubscription: its action is
behind the unsubscription in the queue, and its function is invoked after the return. -/
theorem noLateCall_fails :
    ∃ s : Dispatcher Unit ℕ,
      run step init [.subscribe 0 (), .unsubscribe 1 () 0, .write 0 () [7], .raiseSignal 0,
        .enqueue 0, .work, .returnUnsubscribe 1, .work] = some s ∧ ¬s.NoLateCall := by
  refine ⟨_, rfl, fun h => ?_⟩
  exact List.rel_of_pairwise_cons h (List.mem_singleton_self _) 0 [7] rfl rfl

end Dispatcher

end UtilityFramework
