import UtilityFramework.Utils.TimersOnTime

/-!
# The clients of timers

The callback of a client runs with no mutex held, so that timers may be registered and
unregistered while it runs, by itself or by other threads. The invocation of a client is taken
apart here: `client_wrapper::invoke` counts and calls, and when the callback has returned, a client
whose invocations are used up is removed from its timer (`invokeClient_eq`).

Tokens are the numbers of the registrations in the whole process, counted modulo `2 ^ 31 - 1`. As
long as there are fewer registrations than that, the clients of a context have different tokens
(`Inv.id_inj`).
-/

namespace UtilityFramework

open Transition

/-- Of elements with different keys, the one with the given key is erased. -/
theorem mem_eraseP_of_distinct {α : Type*} {f : α → ℕ} {l : List α} {key : ℕ} {a : α}
    (h : l.Pairwise fun a b => f a ≠ f b) :
    a ∈ l.eraseP (fun b => f b = key) ↔ a ∈ l ∧ f a ≠ key := by
  induction l with
  | nil => simp
  | cons b l ih =>
    obtain ⟨hb, hl⟩ := List.pairwise_cons.mp h
    by_cases hkey : f b = key
    · rw [List.eraseP_cons_of_pos (by simpa using hkey), List.mem_cons]
      refine ⟨fun ha => ⟨.inr ha, fun heq => hb a ha (hkey.trans heq.symm)⟩, ?_⟩
      rintro ⟨rfl | ha, hne⟩
      · exact absurd hkey hne
      · exact ha
    · rw [List.eraseP_cons_of_neg (by simpa using hkey), List.mem_cons, List.mem_cons, ih hl]
      refine ⟨?_, fun ⟨ha, hne⟩ => ha.imp_right fun ha => ⟨ha, hne⟩⟩
      rintro (rfl | ⟨ha, hne⟩)
      · exact ⟨.inl rfl, hkey⟩
      · exact ⟨.inr ha, hne⟩

namespace ContextTimers

/-- The next value of `NEXT_ID`. -/
def takeId (s : ContextTimers) : ContextTimers :=
  { s with nextId := if s.nextId + 1 = 2147483647 then 0 else s.nextId + 1 }

/-- `client_wrapper::invoke`, up to the call of the callback. -/
def callClient (s : ContextTimers) (client : ℕ) : ContextTimers :=
  { s with
    clients := Function.update s.clients client
      { s.clients client with
        invocationCount := (s.clients client).invocationCount - 1
        expired := (s.clients client).expired || ((s.clients client).invocationCount = 1 : Bool) }
    log := s.log ++ [⟨client, s.deadline, s.clock⟩] }

/-- What follows in `timer::invoke` when the callback has returned. -/
def finishClient (s : ContextTimers) (timer client : ℕ) : ContextTimers :=
  if (s.clients client).expired then
    { s with
      timers := Function.update s.timers timer
        { s.timers timer with clients := s.removeClient timer (s.clients client).id } }
  else s

/-- What `remove_timer` returns. -/
def removed (s : ContextTimers) (id : ℕ) : Bool := s.mTimers.any fun p => s.hasClient p.2 id

/-- The clients that the worker has taken over and not invoked yet, with their timers. -/
def executing (s : ContextTimers) : List (ℕ × ℕ) :=
  match s.worker with
  | .invoking executing _ => executing
  | _ => []

/-- The client is in a timer. -/
def Registered (s : ContextTimers) (client : ℕ) : Prop :=
  ∃ timer, client ∈ (s.timers timer).clients

/-- How often a client has been invoked. -/
def invocations (s : ContextTimers) (client : ℕ) : ℕ :=
  s.log.countP fun e => e.client = client

theorem clients_callClient_self (s : ContextTimers) (client : ℕ) :
    (s.callClient client).clients client =
      { s.clients client with
        invocationCount := (s.clients client).invocationCount - 1
        expired :=
          (s.clients client).expired || ((s.clients client).invocationCount = 1 : Bool) } :=
  Function.update_self ..

theorem clients_callClient_of_ne (s : ContextTimers) {client c : ℕ} (hc : c ≠ client) :
    (s.callClient client).clients c = s.clients c := Function.update_of_ne hc ..

@[simp] theorem id_callClient (s : ContextTimers) (client c : ℕ) :
    ((s.callClient client).clients c).id = (s.clients c).id := by
  by_cases hc : c = client
  · rw [hc, clients_callClient_self]
  · rw [clients_callClient_of_ne s hc]

theorem invocations_callClient (s : ContextTimers) (client c : ℕ) :
    (s.callClient client).invocations c =
      s.invocations c + if c = client then 1 else 0 := by
  rw [invocations, callClient, List.countP_append, List.countP_singleton, invocations]
  by_cases hc : c = client
  · rw [if_pos hc, if_pos (decide_eq_true hc.symm)]
  · rw [if_neg hc, if_neg (by simpa using Ne.symm hc)]

/-- An invocation is the call and what follows it. -/
theorem invokeClient_eq (s : ContextTimers) (timer client : ℕ) :
    s.invokeClient timer client = (s.callClient client).finishClient timer client := by
  have hremove (id : ℕ) : (s.callClient client).removeClient timer id =
      s.removeClient timer id := by
    rw [removeClient, removeClient]
    simp only [id_callClient]
    rfl
  rw [invokeClient, finishClient, hremove, id_callClient, clients_callClient_self]
  dsimp only
  split_ifs <;> rfl

section AddClient

variable (s : ContextTimers) (timer : ℕ) (interval : ℚ) (invocationCount : ℕ)

theorem clients_addClient_self :
    (s.addClient timer interval invocationCount).clients s.clientsMade =
      ⟨s.nextId, invocationCount, false, s.clock, interval⟩ :=
  Function.update_self ..

theorem clients_addClient_of_ne {c : ℕ} (hc : c ≠ s.clientsMade) :
    (s.addClient timer interval invocationCount).clients c = s.clients c :=
  Function.update_of_ne hc ..

theorem timers_addClient (timer' : ℕ) :
    ((s.addClient timer interval invocationCount).timers timer').clients =
      (s.timers timer').clients ++ if timer' = timer then [s.clientsMade] else [] := by
  by_cases heq : timer' = timer
  · rw [heq, if_pos rfl]
    exact congrArg Timer.clients (Function.update_self timer _ s.timers)
  · rw [if_neg heq, List.append_nil]
    exact congrArg Timer.clients (Function.update_of_ne heq _ s.timers)

variable {s timer interval invocationCount}

theorem mem_timers_addClient {timer' c : ℕ} :
    c ∈ ((s.addClient timer interval invocationCount).timers timer').clients ↔
      c ∈ (s.timers timer').clients ∨ (timer' = timer ∧ c = s.clientsMade) := by
  rw [timers_addClient, List.mem_append]
  split_ifs with heq <;> simp [heq]

/-- What `timer::add_client` adds is the new client. -/
theorem registered_addClient {c : ℕ}
    (h : (s.addClient timer interval invocationCount).Registered c) :
    s.Registered c ∨ c = s.clientsMade := by
  obtain ⟨timer', hc⟩ := h
  rcases mem_timers_addClient.mp hc with hold | ⟨-, hnew⟩
  · exact .inl ⟨timer', hold⟩
  · exact .inr hnew

end AddClient

theorem finishClient_worker (s : ContextTimers) (timer client : ℕ) (worker : TimerWorker) :
    ({ s with worker := worker } : ContextTimers).finishClient timer client =
      { s.finishClient timer client with worker := worker } := by
  rw [finishClient, finishClient]
  split_ifs <;> rfl

end ContextTimers

/-! ### Steps -/

/-- Timers are registered in this context or in another one, and unregistered, the clock goes on,
and the worker takes a step that invokes no client, calls a client, or comes back from the call. -/
inductive ClientStep
  | register (interval : ℚ) (invocationCount : ℕ)
  | registerElsewhere
  | unregister (id : ℕ)
  | tick (time : ℚ)
  | worker (a : TimerStep)
  | call
  | returns

/-- A registration in the process. -/
def ClientStep.isRegistration : ClientStep → Bool
  | .register _ _ | .registerElsewhere => true
  | _ => false

/-- A step of the worker that invokes no client. -/
def TimerStep.ofWorker : TimerStep → Bool
  | .iterate | .expire _ | .wake | .invokeTimer | .endIteration => true
  | _ => false

/-- The timers of a context, with the client whose callback is running. The invocation count that
each client was registered with and the number of registrations in the process are recorded for
the statements. -/
structure TimerClients where
  context : ContextTimers
  calling : Option (ℕ × ℕ)
  count : ℕ → ℕ
  registrations : ℕ

namespace TimerClients

def init (clock deadline : ℚ) (nextId : ℕ) : TimerClients :=
  ⟨.init clock deadline nextId, none, fun _ => 0, 0⟩

/-- One step. -/
def step (s : TimerClients) : ClientStep → Option TimerClients
  | .register interval invocationCount =>
    some
      { s with
        context := s.context.addTimer interval invocationCount
        count := Function.update s.count s.context.clientsMade invocationCount
        registrations := s.registrations + 1 }
  | .registerElsewhere =>
    some { s with context := s.context.takeId, registrations := s.registrations + 1 }
  | .unregister id => some { s with context := s.context.removeTimer id }
  | .tick time => (s.context.step (.tick time)).map fun context => { s with context := context }
  | .worker a =>
    if s.calling = none ∧ a.ofWorker then
      (s.context.step a).map fun context => { s with context := context }
    else none
  | .call =>
    match s.calling, s.context.worker with
    | none, .invoking ((timer, client) :: executing) pending =>
      some
        { s with
          context := { s.context.callClient client with worker := .invoking executing pending }
          calling := some (timer, client) }
    | _, _ => none
  | .returns =>
    match s.calling with
    | some (timer, client) =>
      some { s with context := s.context.finishClient timer client, calling := none }
    | none => none

/-- The steps of a context are runs here. -/
theorem exists_run_of_step {s t : ContextTimers} {a : TimerStep} (h : s.step a = some t)
    (count : ℕ → ℕ) (registrations : ℕ) :
    ∃ l count' registrations', run step ⟨s, none, count, registrations⟩ l =
      some ⟨t, none, count', registrations'⟩ := by
  have hone {b : ClientStep} {count' : ℕ → ℕ} {registrations' : ℕ}
      (hb : step ⟨s, none, count, registrations⟩ b = some ⟨t, none, count', registrations'⟩) :
      ∃ l count' registrations', run step ⟨s, none, count, registrations⟩ l =
        some ⟨t, none, count', registrations'⟩ :=
    ⟨[b], count', registrations', run_cons_eq_some.mpr ⟨_, hb, rfl⟩⟩
  have hworker (ha : a.ofWorker = true) :
      step ⟨s, none, count, registrations⟩ (.worker a) = some ⟨t, none, count, registrations⟩ := by
    rw [step, if_pos ⟨rfl, ha⟩, h]
    rfl
  cases a with
  | tick time => exact hone (b := .tick time) (by rw [step, h]; rfl)
  | register interval invocationCount =>
    obtain rfl := Option.some.inj h
    exact hone (b := .register interval invocationCount) rfl
  | unregister id =>
    obtain rfl := Option.some.inj h
    exact hone (b := .unregister id) rfl
  | iterate | expire | wake | invokeTimer | endIteration => exact hone (hworker rfl)
  | invokeClient =>
    simp only [ContextTimers.step] at h
    split at h
    · rename_i timer client executing pending hinvoking
      obtain rfl := Option.some.inj h
      refine ⟨[.call, .returns], count, registrations, run_cons_eq_some.mpr
        ⟨_, by simp only [step, hinvoking]; rfl, run_cons_eq_some.mpr ⟨_, rfl, ?_⟩⟩⟩
      rw [run_nil, ContextTimers.finishClient_worker, ContextTimers.invokeClient_eq]
    · cases h

/-! ### The invariant -/

/-- Tokens are the numbers of the registrations, counted from `start`; a client is in one timer,
once, and that timer is listed; a client that is being invoked, or will be, is in the timer that
it is invoked for, if in any, and not used up before its call. What is left of the invocations of
a client, with those there have been, is what it was registered with. -/
structure Inv (start : ℕ) (s : TimerClients) : Prop where
  nextId : s.context.nextId = (start + s.registrations) % 2147483647
  id : ∀ c < s.context.clientsMade, ∃ k < s.registrations,
    (s.context.clients c).id = (start + k) % 2147483647
  id_inj : ∀ c < s.context.clientsMade, ∀ c' < s.context.clientsMade,
    (s.context.clients c).id = (s.context.clients c').id → c = c'
  made : ∀ timer, ∀ c ∈ (s.context.timers timer).clients, c < s.context.clientsMade
  nodup : ∀ timer, (s.context.timers timer).clients.Nodup
  disjoint : ∀ timer timer' c, c ∈ (s.context.timers timer).clients →
    c ∈ (s.context.timers timer').clients → timer = timer'
  listed : ∀ timer, (s.context.timers timer).clients ≠ [] →
    timer ∈ s.context.mTimers.map Prod.snd
  lt : ∀ timer ∈ s.context.mTimers.map Prod.snd, timer < s.context.timersMade
  executing : ∀ x ∈ s.context.executing, x.2 < s.context.clientsMade ∧
    (s.context.clients x.2).expired = false ∧
      (s.context.Registered x.2 → x.2 ∈ (s.context.timers x.1).clients)
  executing_nodup : (s.context.executing.map Prod.snd).Nodup
  calling : ∀ x ∈ s.calling, x.2 < s.context.clientsMade ∧
    (s.context.Registered x.2 → x.2 ∈ (s.context.timers x.1).clients)
  logged : ∀ c, s.context.clientsMade ≤ c → s.context.invocations c = 0
  counted : ∀ c < s.context.clientsMade, 0 < s.count c →
    s.context.invocations c + (s.context.clients c).invocationCount = s.count c ∧
      ((s.context.clients c).expired = true ↔ (s.context.clients c).invocationCount = 0)
  unlimited : ∀ c < s.context.clientsMade, s.count c = 0 →
    (s.context.clients c).invocationCount = 0 ∧ (s.context.clients c).expired = false
  expired : ∀ c, (s.context.clients c).expired = true → s.context.Registered c →
    ∃ timer, s.calling = some (timer, c)

/-- Everything but the timers and the worker is the same. -/
structure SameClients (s t : TimerClients) : Prop where
  clients : t.context.clients = s.context.clients
  made : t.context.clientsMade = s.context.clientsMade
  nextId : t.context.nextId = s.context.nextId
  registrations : t.registrations = s.registrations
  count : t.count = s.count
  log : t.context.log = s.context.log

section Steps

variable {start : ℕ} {s t : TimerClients}

theorem inv_init (clock deadline : ℚ) {nextId : ℕ} (h : nextId < 2147483647) :
    Inv nextId (init clock deadline nextId) where
  nextId := (Nat.mod_eq_of_lt h).symm
  id c hc := absurd hc (Nat.not_lt_zero c)
  id_inj c hc := absurd hc (Nat.not_lt_zero c)
  made _ _ hc := absurd hc List.not_mem_nil
  nodup _ := List.nodup_nil
  disjoint _ _ _ hc := absurd hc List.not_mem_nil
  listed _ hne := absurd rfl hne
  lt _ hmem := absurd hmem List.not_mem_nil
  executing _ hx := absurd hx List.not_mem_nil
  executing_nodup := List.nodup_nil
  calling _ hx := by cases hx
  logged _ _ := rfl
  counted c hc := absurd hc (Nat.not_lt_zero c)
  unlimited c hc := absurd hc (Nat.not_lt_zero c)
  expired _ hc := by cases hc

/-- What changes no client and adds none to a timer keeps the invariant. -/
theorem Inv.restrict (h : Inv start s) (hsame : SameClients s t)
    (hsub : ∀ timer, (t.context.timers timer).clients.Sublist (s.context.timers timer).clients)
    (hlisted : ∀ timer, (t.context.timers timer).clients ≠ [] →
      timer ∈ t.context.mTimers.map Prod.snd)
    (hlt : ∀ timer ∈ t.context.mTimers.map Prod.snd, timer < t.context.timersMade)
    (hexecuting : t.context.executing.Sublist s.context.executing)
    (hcalling : ∀ x ∈ t.calling, x ∈ s.calling)
    (hexpired : ∀ c, (s.context.clients c).expired = true → s.context.Registered c →
      t.context.Registered c → ∃ timer, t.calling = some (timer, c)) : Inv start t := by
  have hin {timer c : ℕ} (hc : t.context.Registered c)
      (hold : s.context.Registered c → c ∈ (s.context.timers timer).clients) :
      c ∈ (t.context.timers timer).clients := by
    obtain ⟨timer', htimer'⟩ := hc
    have hmem := (hsub timer').subset htimer'
    rwa [h.disjoint timer timer' c (hold ⟨timer', hmem⟩) hmem]
  have hinvocations (c : ℕ) : t.context.invocations c = s.context.invocations c := by
    rw [ContextTimers.invocations, hsame.log, ContextTimers.invocations]
  have hreg {c : ℕ} (hc : t.context.Registered c) : s.context.Registered c :=
    hc.imp fun timer htimer => (hsub timer).subset htimer
  exact {
    nextId := by rw [hsame.nextId, hsame.registrations, h.nextId]
    id := by rw [hsame.clients, hsame.made, hsame.registrations]; exact h.id
    id_inj := by rw [hsame.clients, hsame.made]; exact h.id_inj
    made := fun timer c hc => hsame.made ▸ h.made timer c ((hsub timer).subset hc)
    nodup := fun timer => (h.nodup timer).sublist (hsub timer)
    disjoint := fun timer timer' c hc hc' =>
      h.disjoint timer timer' c ((hsub timer).subset hc) ((hsub timer').subset hc')
    listed := hlisted
    lt := hlt
    executing := fun x hx => by
      obtain ⟨hlt', hexp, hmem⟩ := h.executing x (hexecuting.subset hx)
      rw [hsame.made, hsame.clients]
      exact ⟨hlt', hexp, fun hc => hin hc hmem⟩
    executing_nodup := h.executing_nodup.sublist (hexecuting.map Prod.snd)
    calling := fun x hx => by
      obtain ⟨hlt', hmem⟩ := h.calling x (hcalling x hx)
      exact ⟨hsame.made ▸ hlt', fun hc => hin hc hmem⟩
    logged := fun c hc => (hinvocations c).trans (h.logged c (hsame.made ▸ hc))
    counted := by
      simp only [hinvocations, hsame.clients, hsame.made, hsame.count]
      exact h.counted
    unlimited := by
      rw [hsame.clients, hsame.made, hsame.count]
      exact h.unlimited
    expired := fun c hc hregistered =>
      hexpired c (hsame.clients ▸ hc) (hreg hregistered) hregistered }

/-- What is left of the clients of a timer is what has another token. -/
theorem Inv.mem_removeClient (h : Inv start s) {timer id c : ℕ} :
    c ∈ s.context.removeClient timer id ↔
      c ∈ (s.context.timers timer).clients ∧ (s.context.clients c).id ≠ id := by
  have hpair : (s.context.timers timer).clients.Pairwise fun c c' =>
      (s.context.clients c).id ≠ (s.context.clients c').id :=
    (h.nodup timer).imp_of_mem fun hc hc' hne heq =>
      hne (h.id_inj _ (h.made timer _ hc) _ (h.made timer _ hc') heq)
  exact mem_eraseP_of_distinct hpair

theorem Inv.unregister (h : Inv start s) (id : ℕ) :
    Inv start { s with context := s.context.removeTimer id } := by
  refine h.restrict ⟨rfl, rfl, rfl, rfl, rfl, rfl⟩ (fun timer => ?_) (fun timer hne => ?_)
    (fun timer htimer => ?_) (List.Sublist.refl _) (fun _ hx => hx)
    fun c hc hreg _ => h.expired c hc hreg
  · simp only [ContextTimers.removeTimer]
    split_ifs
    · exact List.eraseP_sublist
    · exact List.Sublist.refl _
  · simp only [ContextTimers.removeTimer] at hne ⊢
    split_ifs at hne with hmem
    · obtain ⟨p, hp, rfl⟩ := List.mem_map.mp hmem
      refine List.mem_map_of_mem (List.mem_filter.mpr ⟨hp, ?_⟩)
      rw [decide_eq_true_iff]
      exact fun hgone => hne hgone.2
    · exact absurd (h.listed timer hne) hmem
  · exact h.lt timer ((List.filter_sublist.map Prod.snd).subset htimer)

/-- The callback has returned. -/
theorem Inv.returns (h : Inv start s) (ht : s.step .returns = some t) : Inv start t := by
  simp only [step] at ht
  split at ht
  · rename_i timer client hcalling
    obtain rfl := Option.some.inj ht
    by_cases hexp : (s.context.clients client).expired = true
    · have hfinish : s.context.finishClient timer client =
          { s.context with
            timers := Function.update s.context.timers timer
              { s.context.timers timer with
                clients := s.context.removeClient timer (s.context.clients client).id } } :=
        if_pos hexp
      rw [hfinish]
      have hsub (timer' : ℕ) : (Function.update s.context.timers timer
          { s.context.timers timer with
            clients := s.context.removeClient timer (s.context.clients client).id }
              timer').clients.Sublist (s.context.timers timer').clients := by
        by_cases htimer : timer' = timer
        · rw [htimer, Function.update_self]
          exact List.eraseP_sublist
        · rw [Function.update_of_ne htimer]
      refine h.restrict ⟨rfl, rfl, rfl, rfl, rfl, rfl⟩ hsub (fun timer' hne => ?_) h.lt
        (List.Sublist.refl _) (fun _ hx => by cases hx) fun c hc hreg hreg' => ?_
      · exact h.listed timer' fun hnil => hne (List.sublist_nil.mp (hnil ▸ hsub timer'))
      · -- The client that is used up has just been removed.
        obtain ⟨timer', hcall⟩ := h.expired c hc hreg
        obtain ⟨rfl, rfl⟩ := Prod.mk.inj (Option.some.inj (hcalling.symm.trans hcall))
        obtain ⟨timer', hmem⟩ := hreg'
        obtain rfl := h.disjoint timer' timer client ((hsub timer').subset hmem)
          ((h.calling (timer, client) hcalling).2 hreg)
        dsimp only at hmem
        rw [Function.update_self] at hmem
        exact absurd rfl (h.mem_removeClient.mp hmem).2
    · have hfinish : s.context.finishClient timer client = s.context := if_neg hexp
      rw [hfinish]
      refine h.restrict ⟨rfl, rfl, rfl, rfl, rfl, rfl⟩ (fun _ => List.Sublist.refl _) h.listed h.lt
        (List.Sublist.refl _) (fun _ hx => by cases hx) fun c hc hreg _ => ?_
      obtain ⟨timer', hcall⟩ := h.expired c hc hreg
      obtain ⟨rfl, rfl⟩ := Prod.mk.inj (Option.some.inj (hcalling.symm.trans hcall))
      exact absurd hc hexp
  · cases ht

/-- A timer is invoked: its clients are taken over. -/
theorem Inv.invokeTimer (h : Inv start s) (hcalling : s.calling = none) {timer : ℕ}
    {pending : List ℕ} : Inv start { s with
      context := { s.context with
        worker :=
          .invoking ((s.context.timers timer).clients.map fun c => (timer, c)) pending } } :=
  { h with
    executing := fun x hx => by
      obtain ⟨c, hc, rfl⟩ := List.mem_map.mp hx
      refine ⟨h.made timer c hc, ?_, fun _ => hc⟩
      cases hexp : (s.context.clients c).expired with
      | false => rfl
      | true =>
        obtain ⟨timer', hcall⟩ := h.expired c hexp ⟨timer, hc⟩
        cases hcalling.symm.trans hcall
    executing_nodup := by
      have hsnd : ((s.context.timers timer).clients.map fun c => (timer, c)).map Prod.snd =
          (s.context.timers timer).clients := by
        rw [List.map_map]
        exact List.map_id _
      exact hsnd.symm ▸ h.nodup timer }

/-- The other steps of the worker. -/
theorem Inv.worker (h : Inv start s) {a : TimerStep} (ht : s.step (.worker a) = some t) :
    Inv start t := by
  simp only [step] at ht
  split_ifs at ht with hcond
  obtain ⟨hcalling, hworker⟩ := hcond
  obtain ⟨context, hstep, rfl⟩ := Option.map_eq_some_iff.mp ht
  have hself (timer : ℕ) : (s.context.timers timer).clients.Sublist
      (s.context.timers timer).clients := List.Sublist.refl _
  have hexpired (c : ℕ) (hc : (s.context.clients c).expired = true)
      (hreg : s.context.Registered c) (_ : s.context.Registered c) :
      ∃ timer, s.calling = some (timer, c) := h.expired c hc hreg
  -- Where the worker gets to without taking clients over.
  have hmove {mTimers : List (ℚ × ℕ)} {deadline : ℚ} {worker : TimerWorker}
      (hlisted : ∀ timer, (s.context.timers timer).clients ≠ [] →
        timer ∈ mTimers.map Prod.snd)
      (hsub : ∀ timer ∈ mTimers.map Prod.snd, timer ∈ s.context.mTimers.map Prod.snd)
      (hnone : ({ s.context with worker := worker } : ContextTimers).executing = []) :
      Inv start { s with context := { s.context with
        mTimers := mTimers, deadline := deadline, worker := worker } } :=
    h.restrict ⟨rfl, rfl, rfl, rfl, rfl, rfl⟩ hself hlisted
      (fun timer ht => h.lt timer (hsub timer ht)) (hnone ▸ List.nil_sublist _) (fun _ hx => hx)
      hexpired
  cases a with
  | iterate =>
    simp only [ContextTimers.step] at hstep
    split at hstep
    · obtain rfl := Option.some.inj hstep
      refine hmove (fun timer hne => ?_)
        (fun timer ht => (List.filter_sublist.map Prod.snd).subset ht) rfl
      obtain ⟨p, hp, rfl⟩ := List.mem_map.mp (h.listed timer hne)
      refine List.mem_map_of_mem (List.mem_filter.mpr ⟨hp, ?_⟩)
      simpa [ContextTimers.unused] using hne
    · cases hstep
  | expire remaining =>
    simp only [ContextTimers.step] at hstep
    split at hstep
    · split at hstep
      · rename_i pending _ _
        obtain rfl := Option.some.inj hstep
        have hsnd : (s.context.checkTimers pending remaining).mTimers.map Prod.snd =
            s.context.mTimers.map Prod.snd := ContextTimers.map_snd_checkTimers
        exact hmove (fun timer hne => hsnd.symm ▸ h.listed timer hne)
          (fun timer ht => hsnd ▸ ht) rfl
      · cases hstep
    · cases hstep
  | wake =>
    simp only [ContextTimers.step] at hstep
    split at hstep
    · obtain rfl := Option.some.inj hstep
      exact hmove h.listed (fun _ ht => ht) rfl
    · cases hstep
  | endIteration =>
    simp only [ContextTimers.step] at hstep
    split at hstep
    · obtain rfl := Option.some.inj hstep
      exact hmove h.listed (fun _ ht => ht) rfl
    · cases hstep
  | invokeTimer =>
    simp only [ContextTimers.step] at hstep
    split at hstep
    · obtain rfl := Option.some.inj hstep
      exact h.invokeTimer hcalling
    · cases hstep
  | tick | register | unregister | invokeClient => cases hworker

/-- A client is called. -/
theorem Inv.call (h : Inv start s) (ht : s.step .call = some t) : Inv start t := by
  simp only [step] at ht
  split at ht
  · rename_i timer client executing pending hcalling hworker
    obtain rfl := Option.some.inj ht
    have hexec : s.context.executing = (timer, client) :: executing := by
      rw [ContextTimers.executing, hworker]
    obtain ⟨hmade, hexp, hmem⟩ := h.executing (timer, client) (hexec ▸ List.mem_cons_self)
    have hnodup := h.executing_nodup
    rw [hexec, List.map_cons, List.nodup_cons] at hnodup
    have hself := s.context.clients_callClient_self client
    have hother {c : ℕ} (hc : c ≠ client) := s.context.clients_callClient_of_ne hc
    have hinvocations (c : ℕ) := s.context.invocations_callClient client c
    refine ⟨h.nextId, fun c hc => ?_, fun c hc c' hc' heq => ?_, h.made, h.nodup, h.disjoint,
      h.listed, h.lt, fun x hx => ?_, hnodup.2, fun x hx => ?_, fun c hc => ?_,
      fun c hc hpos => ?_, fun c hc hzero => ?_, fun c hc hreg => ?_⟩
    · obtain ⟨k, hk, hid⟩ := h.id c hc
      exact ⟨k, hk, (s.context.id_callClient client c).trans hid⟩
    · refine h.id_inj c hc c' hc' ?_
      rw [← s.context.id_callClient client c, ← s.context.id_callClient client c']
      exact heq
    · obtain ⟨hmade', hexp', hmem'⟩ := h.executing x (hexec ▸ List.mem_cons_of_mem _ hx)
      have hne : x.2 ≠ client := fun heq => hnodup.1 (List.mem_map.mpr ⟨x, hx, heq⟩)
      exact ⟨hmade', by rw [hother hne]; exact hexp', hmem'⟩
    · obtain rfl := Option.some.inj hx
      exact ⟨hmade, hmem⟩
    · refine (hinvocations c).trans ?_
      rw [h.logged c hc, if_neg (hmade.trans_le hc).ne']
    · obtain ⟨hsum, hiff⟩ := h.counted c hc hpos
      change (s.context.callClient client).invocations c + _ = _ ∧ _
      rw [hinvocations c]
      by_cases heq : c = client
      · -- An invocation is left, as the client is not used up.
        subst heq
        have hne : (s.context.clients c).invocationCount ≠ 0 := fun hzero =>
          absurd (hexp.symm.trans (hiff.mpr hzero)) (by decide)
        rw [hself, if_pos rfl, hexp, Bool.false_or, decide_eq_true_iff]
        dsimp only
        omega
      · rw [hother heq, if_neg heq, Nat.add_zero]
        exact ⟨hsum, hiff⟩
    · obtain ⟨hnone, hexp'⟩ := h.unlimited c hc hzero
      by_cases heq : c = client
      · subst heq
        rw [hself, hnone, hexp']
        exact ⟨rfl, rfl⟩
      · rw [hother heq]
        exact ⟨hnone, hexp'⟩
    · by_cases heq : c = client
      · exact ⟨timer, by rw [heq]⟩
      · rw [hother heq] at hc
        obtain ⟨timer', hcall⟩ := h.expired c hc hreg
        cases hcalling.symm.trans hcall
  · cases ht

/-- A timer is made. -/
theorem Inv.newTimer (h : Inv start s) (interval : ℚ) {mTimers : List (ℚ × ℕ)}
    (hlisted : ∀ timer, (s.context.timers timer).clients ≠ [] → timer ∈ mTimers.map Prod.snd)
    (hsub : ∀ timer ∈ mTimers.map Prod.snd, timer ∈ s.context.mTimers.map Prod.snd) :
    Inv start { s with
      context := ({ s.context with mTimers := mTimers } : ContextTimers).newTimer interval } := by
  have hclients (timer : ℕ) : (Function.update s.context.timers s.context.timersMade
      ⟨interval, []⟩ timer).clients = (s.context.timers timer).clients := by
    by_cases htimer : timer = s.context.timersMade
    · rw [htimer, Function.update_self]
      by_contra hne
      have hmem := h.listed s.context.timersMade fun hnil => hne hnil.symm
      exact absurd (h.lt _ hmem) (lt_irrefl _)
    · rw [Function.update_of_ne htimer]
  have hsnd : ((({ s.context with mTimers := mTimers } : ContextTimers).newTimer
      interval).mTimers.map Prod.snd) = mTimers.map Prod.snd ++ [s.context.timersMade] :=
    List.map_append
  refine h.restrict ⟨rfl, rfl, rfl, rfl, rfl, rfl⟩
    (fun timer => (hclients timer).symm ▸ List.Sublist.refl _) (fun timer hne => ?_)
    (fun timer htimer => ?_) (List.Sublist.refl _) (fun _ hx => hx)
    fun c hc hreg _ => h.expired c hc hreg
  · rw [hsnd]
    exact List.mem_append_left _ (hlisted timer fun hnil => hne ((hclients timer).trans hnil))
  · rw [hsnd, List.mem_append, List.mem_singleton] at htimer
    rcases htimer with hold | rfl
    · exact (h.lt timer (hsub timer hold)).trans (Nat.lt_succ_self _)
    · exact Nat.lt_succ_self _

/-- The next token. -/
theorem succ_token {start n id : ℕ} (h : id = (start + n) % 2147483647) :
    (if id + 1 = 2147483647 then 0 else id + 1) = (start + (n + 1)) % 2147483647 := by
  split_ifs <;> omega

/-- The tokens when a client has been added. -/
theorem Inv.id_addClient (h : Inv start s) (timer : ℕ) (interval : ℚ) (invocationCount : ℕ) :
    ∀ c < s.context.clientsMade + 1, ∃ k < s.registrations + 1,
      ((s.context.addClient timer interval invocationCount).clients c).id =
        (start + k) % 2147483647 := by
  intro c hc
  by_cases heq : c = s.context.clientsMade
  · refine ⟨s.registrations, Nat.lt_succ_self _, ?_⟩
    rw [heq, ContextTimers.clients_addClient_self]
    exact h.nextId
  · obtain ⟨k, hk, hid⟩ := h.id c (by omega)
    refine ⟨k, hk.trans (Nat.lt_succ_self _), ?_⟩
    rw [ContextTimers.clients_addClient_of_ne _ _ _ _ heq]
    exact hid

/-- The new token is not the one of another registration. -/
theorem Inv.id_inj_addClient (h : Inv start s) (hregs : s.registrations < 2147483647)
    (timer : ℕ) (interval : ℚ) (invocationCount : ℕ) :
    ∀ c < s.context.clientsMade + 1, ∀ c' < s.context.clientsMade + 1,
      ((s.context.addClient timer interval invocationCount).clients c).id =
        ((s.context.addClient timer interval invocationCount).clients c').id → c = c' := by
  intro c hc c' hc' heq
  have hid := h.nextId
  -- there are fewer registrations than tokens, so that none comes again
  have hne {c : ℕ} (hc : c < s.context.clientsMade) :
      (s.context.clients c).id ≠ s.context.nextId := by
    obtain ⟨k, hk, hidc⟩ := h.id c hc
    omega
  have hlt {c : ℕ} (hc : c < s.context.clientsMade + 1) (hne : c ≠ s.context.clientsMade) :
      c < s.context.clientsMade := by omega
  by_cases hcm : c = s.context.clientsMade <;> by_cases hcm' : c' = s.context.clientsMade
  · rw [hcm, hcm']
  · rw [hcm, ContextTimers.clients_addClient_self,
      ContextTimers.clients_addClient_of_ne _ _ _ _ hcm'] at heq
    exact absurd heq.symm (hne (hlt hc' hcm'))
  · rw [hcm', ContextTimers.clients_addClient_self,
      ContextTimers.clients_addClient_of_ne _ _ _ _ hcm] at heq
    exact absurd heq (hne (hlt hc hcm))
  · rw [ContextTimers.clients_addClient_of_ne _ _ _ _ hcm,
      ContextTimers.clients_addClient_of_ne _ _ _ _ hcm'] at heq
    exact h.id_inj c (hlt hc hcm) c' (hlt hc' hcm') heq

/-- The new client is in one timer, once. -/
theorem Inv.timers_addClient (h : Inv start s) (timer : ℕ) (interval : ℚ)
    (invocationCount : ℕ) :
    (∀ timer', ((s.context.addClient timer interval invocationCount).timers
        timer').clients.Nodup) ∧
      ∀ timer₁ timer₂ c,
        c ∈ ((s.context.addClient timer interval invocationCount).timers timer₁).clients →
        c ∈ ((s.context.addClient timer interval invocationCount).timers timer₂).clients →
          timer₁ = timer₂ := by
  have hfresh (timer' : ℕ) : s.context.clientsMade ∉ (s.context.timers timer').clients :=
    fun hc => lt_irrefl _ (h.made timer' _ hc)
  constructor
  · intro timer'
    rw [ContextTimers.timers_addClient]
    split_ifs
    · refine List.nodup_append.mpr ⟨h.nodup timer', List.nodup_singleton _, fun a ha b hb => ?_⟩
      rw [List.mem_singleton.mp hb]
      exact (h.made timer' a ha).ne
    · rw [List.append_nil]
      exact h.nodup timer'
  · intro timer₁ timer₂ c hc₁ hc₂
    rcases ContextTimers.mem_timers_addClient.mp hc₁ with hin₁ | ⟨heq₁, heq⟩ <;>
      rcases ContextTimers.mem_timers_addClient.mp hc₂ with hin₂ | ⟨heq₂, heq'⟩
    · exact h.disjoint timer₁ timer₂ c hin₁ hin₂
    · exact absurd (heq' ▸ hin₁) (hfresh timer₁)
    · exact absurd (heq ▸ hin₂) (hfresh timer₂)
    · exact heq₁.trans heq₂.symm

/-- A client is added to a timer that is listed. -/
theorem Inv.addClient (h : Inv start s) (hregs : s.registrations < 2147483647) {timer : ℕ}
    (htimer : timer ∈ s.context.mTimers.map Prod.snd) (interval : ℚ) (invocationCount : ℕ) :
    Inv start
      { s with
        context := s.context.addClient timer interval invocationCount
        count := Function.update s.count s.context.clientsMade invocationCount
        registrations := s.registrations + 1 } := by
  have hold {c : ℕ} (hc : c ≠ s.context.clientsMade) :=
    s.context.clients_addClient_of_ne timer interval invocationCount hc
  have hnew := s.context.clients_addClient_self timer interval invocationCount
  have hreg {c : ℕ} (hc : c ≠ s.context.clientsMade)
      (hr : (s.context.addClient timer interval invocationCount).Registered c) :
      s.context.Registered c := (ContextTimers.registered_addClient hr).resolve_right hc
  have hstays {timer' c : ℕ} (hc : c ∈ (s.context.timers timer').clients) :
      c ∈ ((s.context.addClient timer interval invocationCount).timers timer').clients :=
    ContextTimers.mem_timers_addClient.mpr (.inl hc)
  have hlt {c : ℕ} (hc : c < s.context.clientsMade + 1) (hne : c ≠ s.context.clientsMade) :
      c < s.context.clientsMade := by omega
  obtain ⟨hnodup, hdisjoint⟩ := h.timers_addClient timer interval invocationCount
  refine ⟨succ_token h.nextId, h.id_addClient timer interval invocationCount,
    h.id_inj_addClient hregs timer interval invocationCount, fun timer' c hc => ?_, hnodup,
    hdisjoint, fun timer' hne => ?_, h.lt, fun x hx => ?_, h.executing_nodup, fun x hx => ?_,
    fun c hc => h.logged c (Nat.le_of_succ_le hc), fun c hc hpos => ?_, fun c hc hzero => ?_,
    fun c hc hr => ?_⟩
  · rcases ContextTimers.mem_timers_addClient.mp hc with hc | ⟨-, rfl⟩
    · exact (h.made timer' c hc).trans (Nat.lt_succ_self _)
    · exact Nat.lt_succ_self _
  · by_cases heq : timer' = timer
    · rw [heq]
      exact htimer
    · rw [ContextTimers.timers_addClient, if_neg heq, List.append_nil] at hne
      exact h.listed timer' hne
  · obtain ⟨hmade, hexp, hin⟩ := h.executing x hx
    rw [hold hmade.ne]
    exact ⟨hmade.trans (Nat.lt_succ_self _), hexp, fun hr => hstays (hin (hreg hmade.ne hr))⟩
  · obtain ⟨hmade, hin⟩ := h.calling x hx
    exact ⟨hmade.trans (Nat.lt_succ_self _), fun hr => hstays (hin (hreg hmade.ne hr))⟩
  · dsimp only at hpos ⊢
    by_cases heq : c = s.context.clientsMade
    · subst heq
      rw [Function.update_self] at hpos ⊢
      rw [hnew]
      refine ⟨?_, iff_of_false Bool.false_ne_true hpos.ne'⟩
      exact (congrArg (· + invocationCount) (h.logged _ (le_refl _))).trans (Nat.zero_add _)
    · rw [Function.update_of_ne heq] at hpos ⊢
      rw [hold heq]
      exact h.counted c (hlt hc heq) hpos
  · dsimp only at hzero ⊢
    by_cases heq : c = s.context.clientsMade
    · subst heq
      rw [Function.update_self] at hzero
      rw [hnew]
      exact ⟨hzero, rfl⟩
    · rw [Function.update_of_ne heq] at hzero
      rw [hold heq]
      exact h.unlimited c (hlt hc heq) hzero
  · by_cases heq : c = s.context.clientsMade
    · rw [heq, hnew] at hc
      cases hc
    · rw [hold heq] at hc
      exact h.expired c hc (hreg heq hr)

/-- `add_timer`. -/
theorem Inv.register (h : Inv start s) (hregs : s.registrations < 2147483647) (interval : ℚ)
    (invocationCount : ℕ) (ht : s.step (.register interval invocationCount) = some t) :
    Inv start t := by
  obtain rfl := Option.some.inj ht
  have hnew {mTimers : List (ℚ × ℕ)} : s.context.timersMade ∈ ((({ s.context with
      mTimers := mTimers } : ContextTimers).newTimer interval).mTimers.map Prod.snd) :=
    List.mem_map.mpr ⟨_, List.mem_append_right _ (List.mem_singleton_self _), rfl⟩
  rw [ContextTimers.addTimer]
  split
  · exact (h.newTimer interval h.listed fun _ hm => hm).addClient hregs hnew interval
      invocationCount
  · rename_i found hfound
    split_ifs with hunused
    · refine (h.newTimer interval (fun timer hne => ?_)
        fun timer hm => (List.eraseP_sublist.map Prod.snd).subset hm).addClient hregs hnew interval
          invocationCount
      -- The timer that is erased has no clients.
      obtain ⟨p, hp, rfl⟩ := List.mem_map.mp (h.listed timer hne)
      refine List.mem_map_of_mem (ContextTimers.mem_eraseP_of_ne_found hfound hp fun heq => ?_)
      rw [heq] at hne
      exact hne (by simpa [ContextTimers.unused] using hunused)
    · refine h.addClient hregs ?_ interval invocationCount
      rw [ContextTimers.findTimer] at hfound
      split at hfound
      · exact List.mem_map_of_mem (List.mem_of_find?_eq_some hfound)
      · cases hfound

/-- Every step. -/
theorem Inv.of_step (h : Inv start s) (hregs : s.registrations < 2147483647) {a : ClientStep}
    (ht : s.step a = some t) : Inv start t := by
  cases a with
  | register interval invocationCount => exact h.register hregs interval invocationCount ht
  | registerElsewhere =>
    obtain rfl := Option.some.inj ht
    exact { h with
      nextId := succ_token h.nextId
      id := fun c hc => (h.id c hc).imp fun k hk => ⟨hk.1.trans (Nat.lt_succ_self _), hk.2⟩ }
  | unregister id => exact Option.some.inj ht ▸ h.unregister id
  | tick time =>
    obtain ⟨context, hstep, rfl⟩ := Option.map_eq_some_iff.mp ht
    simp only [ContextTimers.step] at hstep
    split_ifs at hstep
    obtain rfl := Option.some.inj hstep
    exact { h with }
  | worker a => exact h.worker ht
  | call => exact h.call ht
  | returns => exact h.returns ht

end Steps

/-! ### Clients that are gone -/

section Gone

/-- What `add_timer` adds is the new client. -/
theorem registered_addTimer {s : ContextTimers} {interval : ℚ} {invocationCount c : ℕ}
    (h : (s.addTimer interval invocationCount).Registered c) :
    s.Registered c ∨ c = s.clientsMade := by
  have hmake {s : ContextTimers} (h : (s.newTimer interval).Registered c) : s.Registered c := by
    obtain ⟨timer', hc⟩ := h
    rw [ContextTimers.newTimer] at hc
    dsimp only at hc
    by_cases heq : timer' = s.timersMade
    · rw [heq, Function.update_self] at hc
      cases hc
    · rw [Function.update_of_ne heq] at hc
      exact ⟨timer', hc⟩
  rw [ContextTimers.addTimer] at h
  split at h
  · exact (ContextTimers.registered_addClient h).imp_left hmake
  · split_ifs at h
    · exact (ContextTimers.registered_addClient h).imp_left hmake
    · exact ContextTimers.registered_addClient h

theorem addTimer_frame (s : ContextTimers) (interval : ℚ) (invocationCount : ℕ) :
    (s.addTimer interval invocationCount).clientsMade = s.clientsMade + 1 ∧
      (s.addTimer interval invocationCount).log = s.log ∧
      (s.addTimer interval invocationCount).worker = s.worker := by
  rw [ContextTimers.addTimer]
  split
  · exact ⟨rfl, rfl, rfl⟩
  · split_ifs
    · exact ⟨rfl, rfl, rfl⟩
    · exact ⟨rfl, rfl, rfl⟩

theorem registered_removeTimer {s : ContextTimers} {id c : ℕ}
    (h : (s.removeTimer id).Registered c) : s.Registered c := by
  obtain ⟨timer, hc⟩ := h
  rw [ContextTimers.removeTimer] at hc
  dsimp only at hc
  split_ifs at hc
  · exact ⟨timer, List.eraseP_sublist.subset hc⟩
  · exact ⟨timer, hc⟩

theorem finishClient_frame (s : ContextTimers) (timer client : ℕ) :
    (s.finishClient timer client).clientsMade = s.clientsMade ∧
      (s.finishClient timer client).log = s.log ∧
      (s.finishClient timer client).worker = s.worker := by
  rw [ContextTimers.finishClient]
  split_ifs
  · exact ⟨rfl, rfl, rfl⟩
  · exact ⟨rfl, rfl, rfl⟩

theorem registered_finishClient {s : ContextTimers} {timer client c : ℕ}
    (h : (s.finishClient timer client).Registered c) : s.Registered c := by
  obtain ⟨timer', hc⟩ := h
  rw [ContextTimers.finishClient] at hc
  split_ifs at hc
  · dsimp only at hc
    by_cases heq : timer' = timer
    · rw [heq, Function.update_self] at hc
      exact ⟨timer, List.eraseP_sublist.subset hc⟩
    · rw [Function.update_of_ne heq] at hc
      exact ⟨timer', hc⟩
  · exact ⟨timer', hc⟩

/-- A client that has been registered and is in no timer. If it is quiet, it is not about to be
invoked either, and has been invoked `n` times. -/
structure Gone (quiet : Prop) (c n : ℕ) (s : ContextTimers) : Prop where
  made : c < s.clientsMade
  notRegistered : ¬s.Registered c
  notExecuting : quiet → c ∉ s.executing.map Prod.snd
  invocations : quiet → s.invocations c = n

variable {quiet : Prop} {s t : TimerClients} {c n : ℕ}

/-- The steps of the worker take over only clients of timers. -/
theorem Gone.worker {s t : ContextTimers} (h : Gone quiet c n s) {a : TimerStep}
    (ha : a.ofWorker = true) (ht : s.step a = some t) : Gone quiet c n t := by
  have hnone {u : ContextTimers} (htimers : u.timers = s.timers) (hlog : u.log = s.log)
      (hmade : u.clientsMade = s.clientsMade) (hexec : c ∉ u.executing.map Prod.snd) :
      Gone quiet c n u := by
    refine ⟨hmade ▸ h.made, ?_, fun _ => hexec, ?_⟩
    · rw [ContextTimers.Registered, htimers]
      exact h.notRegistered
    · rw [ContextTimers.invocations, hlog]
      exact h.invocations
  cases a with
  | iterate | wake | endIteration =>
    simp only [ContextTimers.step] at ht
    split at ht
    · exact Option.some.inj ht ▸ hnone rfl rfl rfl List.not_mem_nil
    · cases ht
  | expire =>
    simp only [ContextTimers.step] at ht
    split at ht
    · split_ifs at ht
      exact Option.some.inj ht ▸ hnone rfl rfl rfl List.not_mem_nil
    · cases ht
  | invokeTimer =>
    simp only [ContextTimers.step] at ht
    split at ht
    · rename_i timer pending _
      refine Option.some.inj ht ▸ hnone rfl rfl rfl fun hmem => ?_
      obtain ⟨x, hx, rfl⟩ := List.mem_map.mp hmem
      obtain ⟨c, hc, rfl⟩ := List.mem_map.mp hx
      exact h.notRegistered ⟨timer, hc⟩
    · cases ht
  | tick | register | unregister | invokeClient => cases ha

/-- Every step: a client that is gone stays so. -/
theorem Gone.of_step (h : Gone quiet c n s.context) {a : ClientStep} (ht : s.step a = some t) :
    Gone quiet c n t.context := by
  cases a with
  | register interval invocationCount =>
    obtain rfl := Option.some.inj ht
    obtain ⟨hmade, hlog, hworker⟩ := addTimer_frame s.context interval invocationCount
    refine ⟨?_, fun hreg => ?_, ?_, ?_⟩
    · rw [hmade]
      exact h.made.trans (Nat.lt_succ_self _)
    · rcases registered_addTimer hreg with hreg | heq
      · exact h.notRegistered hreg
      · exact absurd heq h.made.ne
    · rw [ContextTimers.executing, hworker]
      exact h.notExecuting
    · rw [ContextTimers.invocations, hlog]
      exact h.invocations
  | registerElsewhere =>
    exact Option.some.inj ht ▸ ⟨h.made, h.notRegistered, h.notExecuting, h.invocations⟩
  | unregister id =>
    obtain rfl := Option.some.inj ht
    exact ⟨h.made, fun hreg => h.notRegistered (registered_removeTimer hreg), h.notExecuting,
      h.invocations⟩
  | tick time =>
    obtain ⟨context, hstep, rfl⟩ := Option.map_eq_some_iff.mp ht
    simp only [ContextTimers.step] at hstep
    split_ifs at hstep
    exact Option.some.inj hstep ▸ ⟨h.made, h.notRegistered, h.notExecuting, h.invocations⟩
  | worker a =>
    simp only [step] at ht
    split_ifs at ht with hcond
    obtain ⟨context, hstep, rfl⟩ := Option.map_eq_some_iff.mp ht
    exact h.worker hcond.2 hstep
  | call =>
    simp only [step] at ht
    split at ht
    · rename_i timer client executing pending _ hworker
      obtain rfl := Option.some.inj ht
      have hexec := h.notExecuting
      rw [ContextTimers.executing, hworker, List.map_cons, List.mem_cons, not_or] at hexec
      refine ⟨h.made, h.notRegistered, fun hquiet => (hexec hquiet).2, fun hquiet => ?_⟩
      refine (s.context.invocations_callClient client c).trans ?_
      rw [if_neg (hexec hquiet).1, Nat.add_zero, h.invocations hquiet]
    · cases ht
  | returns =>
    simp only [step] at ht
    split at ht
    · rename_i timer client _
      obtain rfl := Option.some.inj ht
      obtain ⟨hmade, hlog, hworker⟩ := finishClient_frame s.context timer client
      refine ⟨?_, fun hreg => h.notRegistered (registered_finishClient hreg), ?_, ?_⟩
      · rw [hmade]
        exact h.made
      · rw [ContextTimers.executing, hworker]
        exact h.notExecuting
      · rw [ContextTimers.invocations, hlog]
        exact h.invocations
    · cases ht

end Gone

/-! ### Runs -/

/-- What is to hold of the clients: one that is registered for a number of invocations is invoked
at most that often, and after the last one it is in its timer only while its callback runs.
`remove_timer` removes precisely the client with the given token, which there is at most one of,
and returns whether there was one. -/
structure Correct (s : TimerClients) : Prop where
  atMost : ∀ c < s.context.clientsMade, 0 < s.count c → s.context.invocations c ≤ s.count c
  usedUp : ∀ c < s.context.clientsMade, 0 < s.count c → s.context.invocations c = s.count c →
    s.context.Registered c → ∃ timer, s.calling = some (timer, c)
  removes : ∀ id c, (s.context.removeTimer id).Registered c ↔
    s.context.Registered c ∧ (s.context.clients c).id ≠ id
  unique : ∀ c c', s.context.Registered c → s.context.Registered c' →
    (s.context.clients c).id = (s.context.clients c').id → c = c'
  returns : ∀ id, s.context.removed id = true ↔
    ∃ c, s.context.Registered c ∧ (s.context.clients c).id = id

theorem Inv.correct {start : ℕ} {s : TimerClients} (h : Inv start s) : Correct s where
  atMost c hc hpos := by
    obtain ⟨hsum, -⟩ := h.counted c hc hpos
    omega
  usedUp c hc hpos heq hreg := by
    obtain ⟨hsum, hiff⟩ := h.counted c hc hpos
    exact h.expired c (hiff.mpr (by omega)) hreg
  removes id c := by
    constructor
    · rintro ⟨timer, hc⟩
      rw [ContextTimers.removeTimer] at hc
      dsimp only at hc
      split_ifs at hc with hmem
      · obtain ⟨hin, hne⟩ := h.mem_removeClient.mp hc
        exact ⟨⟨timer, hin⟩, hne⟩
      · exact absurd (h.listed timer (List.ne_nil_of_mem hc)) hmem
    · rintro ⟨⟨timer, hc⟩, hne⟩
      refine ⟨timer, ?_⟩
      rw [ContextTimers.removeTimer]
      dsimp only
      rw [if_pos (h.listed timer (List.ne_nil_of_mem hc))]
      exact h.mem_removeClient.mpr ⟨hc, hne⟩
  unique c c' hc hc' heq := by
    obtain ⟨timer, hmem⟩ := hc
    obtain ⟨timer', hmem'⟩ := hc'
    exact h.id_inj c (h.made timer c hmem) c' (h.made timer' c' hmem') heq
  returns id := by
    rw [ContextTimers.removed, List.any_eq_true]
    constructor
    · rintro ⟨p, -, hp⟩
      obtain ⟨c, hc, hid⟩ := List.any_eq_true.mp hp
      exact ⟨c, ⟨p.2, hc⟩, of_decide_eq_true hid⟩
    · rintro ⟨c, ⟨timer, hc⟩, hid⟩
      obtain ⟨p, hp, rfl⟩ := List.mem_map.mp (h.listed timer (List.ne_nil_of_mem hc))
      exact ⟨p, hp, List.any_eq_true.mpr ⟨c, hc, decide_eq_true hid⟩⟩

/-- The registrations of a run are counted. -/
theorem registrations_step {s t : TimerClients} {a : ClientStep} (ht : s.step a = some t) :
    t.registrations = s.registrations + if a.isRegistration then 1 else 0 := by
  cases a with
  | register | registerElsewhere | unregister => exact Option.some.inj ht ▸ rfl
  | tick time =>
    obtain ⟨context, -, rfl⟩ := Option.map_eq_some_iff.mp ht
    rfl
  | worker a =>
    simp only [step] at ht
    split_ifs at ht
    obtain ⟨context, -, rfl⟩ := Option.map_eq_some_iff.mp ht
    rfl
  | call =>
    simp only [step] at ht
    split at ht
    · exact Option.some.inj ht ▸ rfl
    · cases ht
  | returns =>
    simp only [step] at ht
    split at ht
    · exact Option.some.inj ht ▸ rfl
    · cases ht

theorem Inv.run {start : ℕ} {s t : TimerClients} {l : List ClientStep} (h : Inv start s)
    (hl : s.registrations + l.countP ClientStep.isRegistration < 2147483647)
    (hr : run step s l = some t) : Inv start t := by
  induction l generalizing s with
  | nil => exact Option.some.inj hr ▸ h
  | cons a l ih =>
    obtain ⟨u, hu, hr⟩ := run_cons_eq_some.mp hr
    have hregs := registrations_step hu
    rw [List.countP_cons] at hl
    exact ih (h.of_step (by omega) hu) (by omega) hr

/-- **Timer clients.** In every run with fewer than `2 ^ 31 - 1` registrations in the process, in
which timers are registered and unregistered at any time, also by the callbacks, the clients are
invoked and removed as they are to be; and a client that has been removed is never in a timer
again, nor invoked, unless it is about to be in the invocation of its timer that is going on. -/
theorem correct_of_run {clock deadline : ℚ} {nextId : ℕ} (hid : nextId < 2147483647)
    {l : List ClientStep} (hl : l.countP ClientStep.isRegistration < 2147483647)
    {s : TimerClients} (hr : run step (init clock deadline nextId) l = some s) :
    Correct s ∧ ∀ c < s.context.clientsMade, ¬s.context.Registered c →
      ∀ l' t, run step s l' = some t → ¬t.context.Registered c ∧
        (c ∉ s.context.executing.map Prod.snd →
          t.context.invocations c = s.context.invocations c) := by
  have hinv : Inv nextId s :=
    (inv_init clock deadline hid).run (by rw [init, Nat.zero_add]; exact hl) hr
  refine ⟨hinv.correct, fun c hc hreg l' t hr' => ?_⟩
  have hgone : Gone (c ∉ s.context.executing.map Prod.snd) c (s.context.invocations c) t.context :=
    run_invariant (J := fun u : TimerClients => Gone (c ∉ s.context.executing.map Prod.snd) c
      (s.context.invocations c) u.context) hr' (fun _ _ _ h ht => h.of_step ht)
      ⟨hc, hreg, id, fun _ => rfl⟩
  exact ⟨hgone.notRegistered, hgone.invocations⟩

/-- A client for two invocations: its first callback registers another client, and when the second
one has returned it is in no timer, so that it cannot be unregistered. -/
def twoInvocations : List ClientStep :=
  [.register 10 2, .worker .iterate, .tick 10000000, .worker (.expire []), .worker .invokeTimer, .call,
    .register 15 0, .returns, .worker .endIteration, .worker .iterate, .tick 20000000,
    .worker (.expire []), .worker .invokeTimer, .call, .returns, .worker .endIteration]

theorem correct_of_run_two : ∃ s, run step (init 0 0 0) twoInvocations = some s ∧
    s.context.invocations 0 = 2 ∧ s.count 0 = 2 ∧ s.context.removed 0 = false ∧ Correct s := by
  have hrun : (run step (init 0 0 0) twoInvocations).map (fun s =>
      (s.context.invocations 0, s.count 0, s.context.removed 0)) = some (2, 2, false) := by
    decide +kernel
  obtain ⟨s, hs, heq⟩ := Option.map_eq_some_iff.mp hrun
  obtain ⟨hinvocations, heq⟩ := Prod.mk.inj heq
  obtain ⟨hcount, hremoved⟩ := Prod.mk.inj heq
  exact ⟨s, hs, hinvocations, hcount, hremoved, (correct_of_run (by decide) (by decide) hs).1⟩

end TimerClients

end UtilityFramework
