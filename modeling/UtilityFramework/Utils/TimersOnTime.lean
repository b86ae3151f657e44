import UtilityFramework.Utils.ContextTimers

/-!
# No timer is early

If every client has a timer of its own, its interval has elapsed when it is invoked: the time
that is left is found with respect to the time stamp, which is never before the registration and
never before the deadlines of the invocations, and the worker does not end its wait before the
deadline. `ContextTimers.Inv` says so between any two steps, and each step keeps it.
-/

namespace UtilityFramework

open Transition

/-! ### The time that is left -/

theorem truncate_of_nonneg {q : ℚ} (h : 0 ≤ q) : truncate q = ⌊q⌋ := by
  rw [truncate, Rat.floor_def', Int.tdiv_eq_ediv_of_nonneg (Rat.num_nonneg.mpr h)]

/-- A timer with a whole interval is due, and the time that is left is a duration. -/
theorem Timer.isExpired_spec {timer : Timer} {now reference : ℚ}
    (hwhole : ContextTimers.WholeInterval timer.interval) (hle : reference ≤ now) :
    (timer.isExpired now reference).2 < 2 ^ 63 ∧
      reference + nanoseconds timer.interval ≤ now + (timer.isExpired now reference).2 := by
  have hnonneg : 0 ≤ now - reference := by linarith
  have hfloor : (⌊now - reference⌋ : ℚ) ≤ now - reference := Int.floor_le _
  have hfloor_nonneg : 0 ≤ ⌊now - reference⌋ := Int.floor_nonneg.mpr hnonneg
  rw [Timer.isExpired, truncate_of_nonneg hnonneg]
  split
  · rename_i hexpired
    refine ⟨by norm_num, ?_⟩
    push_cast
    linarith
  · rename_i hleft
    rw [ge_iff_le, not_le] at hleft
    have hpos : (0 : ℚ) < nanoseconds timer.interval :=
      lt_of_le_of_lt (by exact_mod_cast hfloor_nonneg) hleft
    -- the interval is positive, so it is a whole number of nanoseconds
    obtain ⟨n, hn, hnano⟩ : ∃ n : ℕ, n < 2 ^ 63 ∧ nanoseconds timer.interval = n := by
      rcases hwhole with hneg | hwhole
      · rw [nanoseconds] at hpos
        linarith
      · exact hwhole
    have hdiff : nanoseconds timer.interval - (⌊now - reference⌋ : ℚ) =
        ((n - ⌊now - reference⌋ : ℤ) : ℚ) := by
      rw [hnano]
      push_cast
      rfl
    have hlt : ⌊now - reference⌋ < n := by
      rw [hnano] at hleft
      exact_mod_cast hleft
    have hleft_nonneg : (0 : ℚ) ≤ ((n - ⌊now - reference⌋ : ℤ) : ℚ) := by
      exact_mod_cast (by omega : (0 : ℤ) ≤ n - ⌊now - reference⌋)
    have hcut : (truncate (nanoseconds timer.interval - (⌊now - reference⌋ : ℚ))).toNat % 2 ^ 64 =
        (n - ⌊now - reference⌋ : ℤ).toNat := by
      rw [hdiff, truncate_of_nonneg hleft_nonneg, Int.floor_intCast]
      omega
    dsimp only
    rw [hcut]
    refine ⟨by omega, ?_⟩
    have hcast : (((n - ⌊now - reference⌋ : ℤ).toNat : ℕ) : ℚ) = n - (⌊now - reference⌋ : ℚ) := by
      have hint : ((n - ⌊now - reference⌋ : ℤ).toNat : ℤ) = n - ⌊now - reference⌋ :=
        Int.toNat_of_nonneg (by omega)
      have hrat := congrArg (Int.cast : ℤ → ℚ) hint
      push_cast at hrat
      exact hrat
    rw [hcast, hnano]
    linarith

namespace ContextTimers

variable {s t : ContextTimers}

/-- What `get_next_timers` has found so far: no timer, or timers of which each is due by the
deadline. -/
structure NextTimers (s : ContextTimers) (now : ℚ) (seen : List (ℚ × ℕ))
    (acc : List ℕ × ℚ × ℕ) : Prop where
  sublist : acc.1.Sublist (seen.map Prod.snd)
  found : acc.1 = [] ∧ acc.2.2 = 2 ^ 64 - 1 ∨ acc.2.2 < 2 ^ 63 ∧ acc.2.1 = now + acc.2.2
  due : ∀ timer ∈ acc.1, ∃ stamp, (stamp, timer) ∈ seen ∧
    stamp + nanoseconds (s.timers timer).interval ≤ now + acc.2.2

theorem nextTimers_spec (s : ContextTimers) {now : ℚ} {seen : List (ℚ × ℕ)}
    (rest : List (ℚ × ℕ)) {acc : List ℕ × ℚ × ℕ}
    (hrest : ∀ p ∈ rest, WholeInterval (s.timers p.2).interval ∧ p.1 ≤ now)
    (hacc : s.NextTimers now seen acc) :
    s.NextTimers now (seen ++ rest) (s.nextTimers now rest acc) := by
  induction rest generalizing seen acc with
  | nil =>
    rw [List.append_nil]
    exact hacc
  | cons p rest ih =>
    obtain ⟨stamp, timer⟩ := p
    obtain ⟨timers, deadline, waitInterval⟩ := acc
    have hrest' : ∀ p ∈ rest, WholeInterval (s.timers p.2).interval ∧ p.1 ≤ now :=
      fun p hp => hrest p (List.mem_cons_of_mem _ hp)
    obtain ⟨hwhole, hle⟩ := hrest (stamp, timer) List.mem_cons_self
    obtain ⟨hbound, hdue⟩ := Timer.isExpired_spec hwhole hle
    have happend : seen ++ (stamp, timer) :: rest = (seen ++ [(stamp, timer)]) ++ rest := by
      rw [List.append_assoc, List.singleton_append]
    have hsub : timers.Sublist ((seen ++ [(stamp, timer)]).map Prod.snd) := by
      rw [List.map_append]
      exact hacc.sublist.trans (List.sublist_append_left _ _)
    have hseen {q : ℚ × ℕ} (hq : q ∈ seen) : q ∈ seen ++ [(stamp, timer)] :=
      List.mem_append_left _ hq
    have hlast : (stamp, timer) ∈ seen ++ [(stamp, timer)] :=
      List.mem_append_right _ (List.mem_singleton.mpr rfl)
    -- an entry that adds nothing
    have hskip : s.NextTimers now (seen ++ [(stamp, timer)]) (timers, deadline, waitInterval) := by
      refine ⟨hsub, hacc.found, fun t ht => ?_⟩
      obtain ⟨stamp', hmem, hstamp'⟩ := hacc.due t ht
      exact ⟨stamp', hseen hmem, hstamp'⟩
    rw [happend, nextTimers]
    split
    · exact ih hrest' hskip
    · simp only
      split
      · -- the timer is due before all seen so far
        refine ih hrest' ⟨?_, .inr ⟨hbound, ?_⟩, fun t ht => ?_⟩
        · rw [List.map_append]
          exact List.sublist_append_right _ _
        · rw [toInt64, if_pos hbound]
          push_cast
          rfl
        · obtain rfl := List.mem_singleton.mp ht
          exact ⟨stamp, hlast, hdue⟩
      · split
        · -- the timer is due with those seen so far
          rename_i hlt heq
          refine ih hrest' ⟨?_, ?_, fun t ht => ?_⟩
          · rw [List.map_append]
            exact hacc.sublist.append (List.Sublist.refl _)
          · rcases hacc.found with ⟨-, hmax⟩ | hfound
            · have hwait : ((s.timers timer).isExpired now stamp).2 = waitInterval := heq
              have hbound' : ((s.timers timer).isExpired now stamp).2 < 2 ^ 63 := hbound
              have hmax' : waitInterval = 2 ^ 64 - 1 := hmax
              omega
            · exact .inr hfound
          · rcases List.mem_append.mp ht with hold | hnew
            · obtain ⟨stamp', hmem, hstamp'⟩ := hacc.due t hold
              exact ⟨stamp', hseen hmem, hstamp'⟩
            · obtain rfl := List.mem_singleton.mp hnew
              refine ⟨stamp, hlast, ?_⟩
              rw [← heq]
              exact hdue
        · exact ih hrest' hskip

/-- The timers found are due by the deadline, which is not in the past. -/
theorem NextTimers.le_deadline {now : ℚ} {seen : List (ℚ × ℕ)} {acc : List ℕ × ℚ × ℕ}
    (h : s.NextTimers now seen acc) (hnodup : (seen.map Prod.snd).Nodup)
    (hle : ∀ p ∈ seen, p.1 ≤ now) {p : ℚ × ℕ} (hp : p ∈ seen) (ht : p.2 ∈ acc.1) :
    p.1 ≤ acc.2.1 ∧ p.1 + nanoseconds (s.timers p.2).interval ≤ acc.2.1 := by
  obtain ⟨stamp, hmem, hdue⟩ := h.due p.2 ht
  have hstamp : p.1 = stamp :=
    congrArg Prod.fst (List.inj_on_of_nodup_map hnodup hp hmem rfl)
  rcases h.found with ⟨hnil, -⟩ | ⟨-, hdeadline⟩
  · rw [hnil] at ht
    exact absurd ht List.not_mem_nil
  · rw [hdeadline]
    have hnonneg : (0 : ℚ) ≤ acc.2.2 := Nat.cast_nonneg _
    have hnow := hle p hp
    exact ⟨by linarith, hstamp ▸ hdue⟩

/-! ### The invariant -/

/-- By the deadline, the interval of a client has elapsed since its registration and since the
deadlines of its invocations. -/
def Due (s : ContextTimers) (client : ℕ) : Prop :=
  (s.clients client).registered + nanoseconds (s.clients client).interval ≤ s.deadline ∧
    ∀ e ∈ s.log, e.client = client →
      e.deadline + nanoseconds (s.clients client).interval ≤ s.deadline

/-- The timers that are waited for are due by the deadline, counted from their time stamps. The
clients that are being invoked, or will be, are due, and their timers have the deadline as time
stamp. -/
def WorkerInv (s : ContextTimers) : TimerWorker → Prop
  | .idle => True
  | .waiting pending =>
    pending.Nodup ∧ (∀ t ∈ pending, t < s.timersMade) ∧
      ∀ p ∈ s.mTimers, p.2 ∈ pending →
        p.1 ≤ s.deadline ∧ p.1 + nanoseconds (s.timers p.2).interval ≤ s.deadline
  | .invoking executing pending =>
    s.deadline ≤ s.clock ∧ (executing.map Prod.fst ++ pending).Nodup ∧
      (∀ t ∈ executing.map Prod.fst ++ pending, t < s.timersMade) ∧
      (∀ p ∈ s.mTimers, p.2 ∈ executing.map Prod.fst ++ pending → p.1 = s.deadline) ∧
      (∀ x ∈ executing, x.2 = x.1 ∧ s.Due x.1) ∧
      ∀ t ∈ pending, (s.timers t).clients ≠ [] → s.Due t

/-- Every client has a timer of its own, with the same number. Its time stamp is not before the
registration, nor before the deadlines of the invocations. -/
structure Inv (s : ContextTimers) : Prop where
  made : s.clientsMade = s.timersMade
  clients : ∀ t, (s.timers t).clients = [] ∨ (s.timers t).clients = [t]
  interval : ∀ t < s.timersMade, (s.clients t).interval = (s.timers t).interval
  whole : ∀ t < s.timersMade, WholeInterval (s.timers t).interval
  lt : ∀ p ∈ s.mTimers, p.2 < s.timersMade
  nodup : (s.mTimers.map Prod.snd).Nodup
  listed : ∀ t, (s.timers t).clients ≠ [] → t ∈ s.mTimers.map Prod.snd
  registered : ∀ p ∈ s.mTimers, (s.clients p.2).registered ≤ p.1
  stamp : ∀ p ∈ s.mTimers, p.1 ≤ s.clock
  logged : ∀ e ∈ s.log, e.client < s.timersMade
  stamped : ∀ p ∈ s.mTimers, ∀ e ∈ s.log, e.client = p.2 → e.deadline ≤ p.1
  worker : s.WorkerInv s.worker
  onTime : s.OnTime
  spaced : s.Spaced

theorem inv_init (clock deadline : ℚ) (nextId : ℕ) : (init clock deadline nextId).Inv where
  made := rfl
  clients _ := .inl rfl
  interval t ht := absurd ht (Nat.not_lt_zero t)
  whole t ht := absurd ht (Nat.not_lt_zero t)
  lt _ hp := absurd hp List.not_mem_nil
  nodup := List.nodup_nil
  listed _ ht := absurd rfl ht
  registered _ hp := absurd hp List.not_mem_nil
  stamp _ hp := absurd hp List.not_mem_nil
  logged _ he := absurd he List.not_mem_nil
  stamped _ hp := absurd hp List.not_mem_nil
  worker := trivial
  onTime _ he := absurd he List.not_mem_nil
  spaced := List.Pairwise.nil

/-! ### Every step keeps it -/

/-- The clock goes on. -/
theorem Inv.tick (h : s.Inv) {time : ℚ} (hle : s.clock ≤ time) :
    ({ s with clock := time } : ContextTimers).Inv := by
  have hworker : ({ s with clock := time } : ContextTimers).WorkerInv s.worker := by
    have hw := h.worker
    cases hs : s.worker with
    | idle => trivial
    | waiting pending =>
      rw [hs] at hw
      exact hw
    | invoking executing pending =>
      rw [hs] at hw
      exact ⟨hw.1.trans hle, hw.2⟩
  exact { h with
    stamp := fun p hp => (h.stamp p hp).trans hle
    worker := hworker }

/-- Timers lose their clients or leave `m_timers`. -/
theorem Inv.restrict (h : s.Inv) {timers : ℕ → Timer} {mTimers : List (ℚ × ℕ)}
    (hinterval : ∀ t, (timers t).interval = (s.timers t).interval)
    (hclients : ∀ t, (timers t).clients = [] ∨ (timers t).clients = (s.timers t).clients)
    (hsub : mTimers.Sublist s.mTimers)
    (hlisted : ∀ t, (timers t).clients ≠ [] → t ∈ mTimers.map Prod.snd) :
    ({ s with timers := timers, mTimers := mTimers } : ContextTimers).Inv := by
  have hold {t : ℕ} (ht : (timers t).clients ≠ []) : (s.timers t).clients ≠ [] := by
    rw [← (hclients t).resolve_left ht]
    exact ht
  have hmem {p : ℚ × ℕ} (hp : p ∈ mTimers) : p ∈ s.mTimers := hsub.subset hp
  have hworker : ({ s with timers := timers, mTimers := mTimers } : ContextTimers).WorkerInv
      s.worker := by
    have hw := h.worker
    cases hs : s.worker with
    | idle => trivial
    | waiting pending =>
      rw [hs] at hw
      refine ⟨hw.1, hw.2.1, fun p hp hpending => ?_⟩
      show p.1 ≤ s.deadline ∧ p.1 + nanoseconds (timers p.2).interval ≤ s.deadline
      rw [hinterval]
      exact hw.2.2 p (hmem hp) hpending
    | invoking executing pending =>
      rw [hs] at hw
      exact ⟨hw.1, hw.2.1, hw.2.2.1, fun p hp => hw.2.2.2.1 p (hmem hp), hw.2.2.2.2.1,
        fun t ht hne => hw.2.2.2.2.2 t ht (hold hne)⟩
  exact {
    made := h.made
    clients := fun t => by
      rcases hclients t with hnil | hsame
      · exact .inl hnil
      · rw [hsame]
        exact h.clients t
    interval := fun t ht => (h.interval t ht).trans (hinterval t).symm
    whole := fun t ht => by
      rw [hinterval]
      exact h.whole t ht
    lt := fun p hp => h.lt p (hmem hp)
    nodup := h.nodup.sublist (hsub.map Prod.snd)
    listed := hlisted
    registered := fun p hp => h.registered p (hmem hp)
    stamp := fun p hp => h.stamp p (hmem hp)
    logged := h.logged
    stamped := fun p hp => h.stamped p (hmem hp)
    worker := hworker
    onTime := h.onTime
    spaced := h.spaced }

/-- A registration that does not join a timer. -/
def added (s : ContextTimers) (interval : ℚ) (invocationCount : ℕ) : ContextTimers :=
  (s.newTimer interval).addClient s.timersMade interval invocationCount

section Added

variable {interval : ℚ} {invocationCount : ℕ}

theorem timers_added_of_ne {t : ℕ} (ht : t ≠ s.timersMade) :
    (s.added interval invocationCount).timers t = s.timers t := by
  simp [added, addClient, newTimer, ht]

theorem mem_mTimers_added {p : ℚ × ℕ} (hp : p ∈ (s.added interval invocationCount).mTimers) :
    p ∈ s.mTimers ∨ p = (s.clock, s.timersMade) := by
  simpa [added, addClient, newTimer] using hp

theorem clients_added_of_ne (h : s.Inv) {c : ℕ} (hc : c ≠ s.timersMade) :
    (s.added interval invocationCount).clients c = s.clients c := by
  simp [added, addClient, newTimer, h.made, hc]

theorem timers_added_self (h : s.Inv) :
    (s.added interval invocationCount).timers s.timersMade = ⟨interval, [s.timersMade]⟩ := by
  simp [added, addClient, newTimer, h.made]

theorem clients_added_self (h : s.Inv) :
    (s.added interval invocationCount).clients s.timersMade =
      ⟨s.nextId, invocationCount, false, s.clock, interval⟩ := by
  simp [added, addClient, newTimer, h.made]

theorem Inv.due_added (h : s.Inv) {c : ℕ} (hc : c < s.timersMade) (hd : s.Due c) :
    (s.added interval invocationCount).Due c := by
  rw [Due, clients_added_of_ne h hc.ne]
  exact hd

/-- The timers that the worker is concerned with are not new. -/
theorem Inv.workerInv_added (h : s.Inv) :
    (s.added interval invocationCount).WorkerInv s.worker := by
  have hw := h.worker
  cases hs : s.worker with
  | idle => trivial
  | waiting pending =>
    rw [hs] at hw
    refine ⟨hw.1, fun t ht => Nat.lt_succ_of_lt (hw.2.1 t ht), fun p hp hpending => ?_⟩
    rcases mem_mTimers_added hp with hold | rfl
    · rw [timers_added_of_ne (h.lt p hold).ne]
      exact hw.2.2 p hold hpending
    · exact absurd (hw.2.1 _ hpending) (Nat.lt_irrefl _)
  | invoking executing pending =>
    rw [hs] at hw
    obtain ⟨hdeadline, hnodup, hlt, hstamp, hexecuting, hpending⟩ := hw
    refine ⟨hdeadline, hnodup, fun t ht => Nat.lt_succ_of_lt (hlt t ht), fun p hp ht => ?_,
      fun x hx => ?_, fun t ht hne => ?_⟩
    · rcases mem_mTimers_added hp with hold | rfl
      · exact hstamp p hold ht
      · exact absurd (hlt _ ht) (Nat.lt_irrefl _)
    · have hx' : x.1 < s.timersMade :=
        hlt x.1 (List.mem_append_left _ (List.mem_map_of_mem hx))
      exact ⟨(hexecuting x hx).1, h.due_added hx' (hexecuting x hx).2⟩
    · have ht' : t < s.timersMade := hlt t (List.mem_append_right _ ht)
      rw [timers_added_of_ne ht'.ne] at hne
      exact h.due_added ht' (hpending t ht hne)

/-- A new timer with a new client. -/
theorem Inv.added (h : s.Inv) (hwhole : WholeInterval interval) :
    (s.added interval invocationCount).Inv := by
  have hlt_of_ne {t : ℕ} (ht : t < s.timersMade + 1) (hne : t ≠ s.timersMade) :
      t < s.timersMade := Nat.lt_of_le_of_ne (Nat.le_of_lt_succ ht) hne
  constructor
  · exact congrArg (· + 1) h.made
  · intro t
    by_cases ht : t = s.timersMade
    · rw [ht, timers_added_self h]
      exact .inr rfl
    · rw [timers_added_of_ne ht]
      exact h.clients t
  · intro t ht
    by_cases heq : t = s.timersMade
    · rw [heq, timers_added_self h, clients_added_self h]
    · rw [timers_added_of_ne heq, clients_added_of_ne h heq]
      exact h.interval t (hlt_of_ne ht heq)
  · intro t ht
    by_cases heq : t = s.timersMade
    · rw [heq, timers_added_self h]
      exact hwhole
    · rw [timers_added_of_ne heq]
      exact h.whole t (hlt_of_ne ht heq)
  · intro p hp
    rcases mem_mTimers_added hp with hold | rfl
    · exact Nat.lt_succ_of_lt (h.lt p hold)
    · exact Nat.lt_succ_self _
  · show ((s.mTimers ++ [(s.clock, s.timersMade)]).map Prod.snd).Nodup
    rw [List.map_append]
    refine List.nodup_append.mpr ⟨h.nodup, List.nodup_singleton _, fun a ha b hb hab => ?_⟩
    obtain ⟨p, hp, rfl⟩ := List.mem_map.mp ha
    rw [List.mem_singleton.mp hb] at hab
    exact (h.lt p hp).ne hab
  · intro t ht
    show t ∈ (s.mTimers ++ [(s.clock, s.timersMade)]).map Prod.snd
    rw [List.map_append, List.mem_append]
    by_cases heq : t = s.timersMade
    · exact .inr (List.mem_singleton.mpr heq)
    · rw [timers_added_of_ne heq] at ht
      exact .inl (h.listed t ht)
  · intro p hp
    rcases mem_mTimers_added hp with hold | rfl
    · rw [clients_added_of_ne h (h.lt p hold).ne]
      exact h.registered p hold
    · rw [clients_added_self h]
  · intro p hp
    rcases mem_mTimers_added hp with hold | rfl
    · exact h.stamp p hold
    · exact le_refl s.clock
  · exact fun e he => Nat.lt_succ_of_lt (h.logged e he)
  · -- the new client has not been invoked
    intro p hp e he heq
    rcases mem_mTimers_added hp with hold | rfl
    · exact h.stamped p hold e he heq
    · exact absurd heq (h.logged e he).ne
  · exact h.workerInv_added
  · intro e he
    rw [clients_added_of_ne h (h.logged e he).ne]
    exact h.onTime e he
  · refine h.spaced.imp_of_mem fun he _ hspaced => ?_
    rw [clients_added_of_ne h (h.logged _ he).ne]
    exact hspaced

end Added

/-- Of the entries of `m_timers`, `add_timer` erases at most the one that it has found. -/
theorem mem_eraseP_of_ne_found {interval : ℚ} {invocationCount : ℕ} {found p : ℚ × ℕ}
    (hfound : s.findTimer interval invocationCount = some found) (hp : p ∈ s.mTimers)
    (hne : p ≠ found) : p ∈ s.mTimers.eraseP fun p => (s.timers p.2).interval = interval := by
  rw [findTimer] at hfound
  split at hfound
  · obtain ⟨hmatch, l₁, l₂, hsplit, hbefore⟩ := List.find?_eq_some_iff_append.mp hfound
    have herase : s.mTimers.eraseP (fun p => (s.timers p.2).interval = interval) = l₁ ++ l₂ := by
      rw [hsplit, List.eraseP_append_right _ (fun q hq => by simpa using hbefore q hq),
        List.eraseP_cons_of_pos (by simpa using hmatch)]
    rw [hsplit, List.mem_append, List.mem_cons] at hp
    rw [herase, List.mem_append]
    exact hp.imp_right fun h => h.resolve_left hne
  · cases hfound

/-- `add_timer`, when it does not join a timer that has clients. -/
theorem Inv.addTimer (h : s.Inv) {interval : ℚ} {invocationCount : ℕ}
    (halone : s.Alone (.register interval invocationCount)) :
    (s.addTimer interval invocationCount).Inv := by
  obtain ⟨hwhole, hunused⟩ := halone
  rw [ContextTimers.addTimer]
  split
  · exact h.added hwhole
  · rename_i found hfound
    have hempty := hunused found hfound
    rw [if_pos hempty]
    -- the timer that is erased has no clients
    refine Inv.added (s := { s with mTimers := _ }) (h.restrict (fun _ => rfl) (fun _ => .inr rfl)
      (List.eraseP_sublist ..) fun t ht => ?_) hwhole
    obtain ⟨p, hp, rfl⟩ := List.mem_map.mp (h.listed t ht)
    refine List.mem_map_of_mem (mem_eraseP_of_ne_found hfound hp fun heq => ?_)
    rw [heq] at ht
    exact ht (by simpa [unused] using hempty)

/-- A timer has one client at most, so removing a client leaves none or what was there. -/
theorem Inv.removeClient_cases (h : s.Inv) (t id : ℕ) :
    s.removeClient t id = [] ∨ s.removeClient t id = (s.timers t).clients := by
  rw [removeClient]
  rcases h.clients t with hnil | hone
  · rw [hnil]
    exact .inl rfl
  · rw [hone]
    by_cases hid : (s.clients t).id = id <;> simp [hid]

/-- `remove_timer`. -/
theorem Inv.removeTimer (h : s.Inv) (id : ℕ) : (s.removeTimer id).Inv := by
  refine h.restrict (fun t => ?_) (fun t => ?_) List.filter_sublist fun t ht => ?_
  · dsimp only
    split <;> rfl
  · dsimp only
    split
    · exact h.removeClient_cases t id
    · exact .inr rfl
  · dsimp only at ht
    split at ht
    · rename_i hmem
      obtain ⟨p, hp, rfl⟩ := List.mem_map.mp hmem
      refine List.mem_map_of_mem (List.mem_filter.mpr ⟨hp, ?_⟩)
      rw [decide_eq_true_iff]
      exact fun hgone => ht hgone.2
    · rename_i hnot
      exact absurd (h.listed t ht) hnot

/-- The worker gets to another place in its iteration. -/
theorem Inv.move (h : s.Inv) (deadline : ℚ) {worker : TimerWorker}
    (hworker : ({ s with deadline := deadline, worker := worker } : ContextTimers).WorkerInv
      worker) :
    ({ s with deadline := deadline, worker := worker } : ContextTimers).Inv :=
  { h with worker := hworker }

/-- An iteration begins. -/
theorem Inv.getNextTimers (h : s.Inv) : s.getNextTimers.Inv := by
  have hclean : ({ s with mTimers := s.mTimers.filter fun p => ¬s.unused p.2 } :
      ContextTimers).Inv := by
    refine h.restrict (fun _ => rfl) (fun _ => .inr rfl) List.filter_sublist fun t ht => ?_
    obtain ⟨p, hp, rfl⟩ := List.mem_map.mp (h.listed t ht)
    refine List.mem_map_of_mem (List.mem_filter.mpr ⟨hp, ?_⟩)
    simpa [unused] using ht
  have hstart : s.NextTimers s.clock [] ([], s.deadline, 2 ^ 64 - 1) :=
    ⟨List.Sublist.refl _, .inl ⟨rfl, rfl⟩, fun t ht => absurd ht List.not_mem_nil⟩
  have hnext := nextTimers_spec s (s.mTimers.filter fun p => ¬s.unused p.2)
    (fun p hp => ⟨h.whole p.2 (hclean.lt p hp), hclean.stamp p hp⟩) hstart
  rw [List.nil_append] at hnext
  refine hclean.move _ ⟨hclean.nodup.sublist hnext.sublist, fun t ht => ?_, fun p hp ht => ?_⟩
  · obtain ⟨p, hp, rfl⟩ := List.mem_map.mp (hnext.sublist.subset ht)
    exact hclean.lt p hp
  · exact hnext.le_deadline hclean.nodup hclean.stamp hp ht

/-- Erasures that are defined erase one element after the other. -/
theorem eraseTimers_eq_some {timers timers' removedTimers : List ℕ}
    (h : eraseTimers timers removedTimers = some timers') :
    timers' = removedTimers.foldl List.eraseIdx timers := by
  induction removedTimers generalizing timers with
  | nil => exact (Option.some.inj h).symm
  | cons i removedTimers ih =>
    rw [eraseTimers, List.foldlM_cons] at h
    split_ifs at h with hi
    · exact ih h
    · cases h

theorem foldl_eraseIdx_sublist (l : List ℕ) (indices : List ℕ) :
    (indices.foldl List.eraseIdx l).Sublist l := by
  induction indices generalizing l with
  | nil => exact List.Sublist.refl l
  | cons i indices ih => exact (ih _).trans (List.eraseIdx_sublist ..)

/-- The erasures leave some of the timers. -/
theorem eraseTimers_sublist {timers remaining : List ℕ} (h : remaining.Sublist timers)
    (removedTimers : List ℕ) :
    ((eraseTimers timers removedTimers).getD remaining).Sublist timers := by
  cases heq : eraseTimers timers removedTimers with
  | none => exact h
  | some timers' =>
    rw [Option.getD_some, eraseTimers_eq_some heq]
    exact foldl_eraseIdx_sublist timers removedTimers

section CheckTimers

variable {pending remaining : List ℕ}

/-- The entries of `m_timers` after the stamping. -/
theorem mem_mTimers_checkTimers {q : ℚ × ℕ} (hq : q ∈ (s.checkTimers pending remaining).mTimers) :
    ∃ p ∈ s.mTimers, p.2 = q.2 ∧
      (q.2 ∈ pending ∧ q.1 = s.deadline ∨ q.2 ∉ pending ∧ q.1 = p.1) := by
  obtain ⟨p, hp, rfl⟩ := List.mem_map.mp hq
  refine ⟨p, hp, ?_⟩
  split
  · exact ⟨rfl, .inl ⟨‹_›, rfl⟩⟩
  · exact ⟨rfl, .inr ⟨‹_›, rfl⟩⟩

theorem map_snd_checkTimers :
    (s.checkTimers pending remaining).mTimers.map Prod.snd = s.mTimers.map Prod.snd := by
  rw [ContextTimers.checkTimers, List.map_map]
  refine List.map_congr_left fun p _ => ?_
  simp only [Function.comp_apply]
  split <;> rfl

section

variable (h : s.Inv) (hworker : s.worker = .waiting pending)

include h hworker

/-- No time stamp goes back. -/
theorem Inv.stamp_le_checkTimers {q : ℚ × ℕ} (hq : q ∈ (s.checkTimers pending remaining).mTimers) :
    ∃ p ∈ s.mTimers, p.2 = q.2 ∧ p.1 ≤ q.1 := by
  have hw := h.worker
  rw [hworker] at hw
  obtain ⟨p, hp, hpq, ⟨hin, hstamp⟩ | ⟨-, hstamp⟩⟩ := mem_mTimers_checkTimers hq
  · rw [← hpq] at hin
    exact ⟨p, hp, hpq, hstamp ▸ (hw.2.2 p hp hin).1⟩
  · exact ⟨p, hp, hpq, hstamp.ge⟩

/-- The clients of the timers that were waited for are due. -/
theorem Inv.workerInv_checkTimers (hle : s.deadline ≤ s.clock)
    (hremaining : remaining.Sublist pending) :
    (s.checkTimers pending remaining).WorkerInv (s.checkTimers pending remaining).worker := by
  have hw := h.worker
  rw [hworker] at hw
  obtain ⟨hnodup, hlt, hdue⟩ := hw
  have hsublist := eraseTimers_sublist hremaining
    (pending.findIdxs fun t => !(decide (t ∈ s.mTimers.map Prod.snd)))
  have hpending : ∀ t ∈ (eraseTimers pending (pending.findIdxs fun t =>
      !(decide (t ∈ s.mTimers.map Prod.snd)))).getD remaining, t ∈ pending :=
    fun t ht => hsublist.subset ht
  refine ⟨hle, ?_, fun t ht => hlt t (hpending t ht), fun q hq ht => ?_,
    fun x hx => absurd hx List.not_mem_nil, fun t ht hne => ?_⟩
  · exact hnodup.sublist hsublist
  · obtain ⟨p, hp, hpq, ⟨-, hstamp⟩ | ⟨hnot, -⟩⟩ := mem_mTimers_checkTimers hq
    · exact hstamp
    · exact absurd (hpending q.2 ht) hnot
  · -- a timer with a client is registered, with a stamp from which it is due
    obtain ⟨p, hp, rfl⟩ := List.mem_map.mp (h.listed t hne)
    obtain ⟨-, hdue'⟩ := hdue p hp (hpending p.2 ht)
    rw [← h.interval p.2 (h.lt p hp)] at hdue'
    refine ⟨?_, fun e he heq => ?_⟩
    · have hreg := h.registered p hp
      exact (add_le_add_left hreg _).trans hdue'
    · have hstamped := h.stamped p hp e he heq
      exact (add_le_add_left hstamped _).trans hdue'

/-- The wait ends at the deadline. -/
theorem Inv.checkTimers (hle : s.deadline ≤ s.clock) (hremaining : remaining.Sublist pending) :
    (s.checkTimers pending remaining).Inv where
  made := h.made
  clients := h.clients
  interval := h.interval
  whole := h.whole
  lt q hq := by
    obtain ⟨p, hp, hpq, -⟩ := h.stamp_le_checkTimers hworker hq
    rw [← hpq]
    exact h.lt p hp
  nodup := by
    rw [map_snd_checkTimers]
    exact h.nodup
  listed t ht := by
    rw [map_snd_checkTimers]
    exact h.listed t ht
  registered q hq := by
    obtain ⟨p, hp, hpq, hpq'⟩ := h.stamp_le_checkTimers hworker hq
    have hreg := h.registered p hp
    rw [hpq] at hreg
    exact hreg.trans hpq'
  stamp q hq := by
    obtain ⟨p, hp, -, ⟨-, hstamp⟩ | ⟨-, hstamp⟩⟩ := mem_mTimers_checkTimers hq
    · rw [hstamp]
      exact hle
    · rw [hstamp]
      exact h.stamp p hp
  logged := h.logged
  stamped q hq e he heq := by
    obtain ⟨p, hp, hpq, hpq'⟩ := h.stamp_le_checkTimers hworker hq
    exact (h.stamped p hp e he (heq.trans hpq.symm)).trans hpq'
  worker := h.workerInv_checkTimers hworker hle hremaining
  onTime := h.onTime
  spaced := h.spaced

end

end CheckTimers

/-- The invocation of a timer takes its clients over. -/
theorem Inv.invokeTimer (h : s.Inv) {timer : ℕ} {pending : List ℕ}
    (hworker : s.worker = .invoking [] (timer :: pending)) :
    ({ s with worker := .invoking ((s.timers timer).clients.map fun c => (timer, c)) pending } :
      ContextTimers).Inv := by
  have hw := h.worker
  rw [hworker] at hw
  obtain ⟨hle, hnodup, hlt, hstamp, -, hdue⟩ := hw
  rw [List.map_nil, List.nil_append] at hnodup hlt hstamp
  refine h.move s.deadline ?_
  rcases h.clients timer with hnil | hone
  · -- no client is left
    rw [hnil]
    exact ⟨hle, (List.nodup_cons.mp hnodup).2, fun t ht => hlt t (List.mem_cons_of_mem _ ht),
      fun p hp ht => hstamp p hp (List.mem_cons_of_mem _ ht),
      fun x hx => absurd hx List.not_mem_nil,
      fun t ht => hdue t (List.mem_cons_of_mem _ ht)⟩
  · rw [hone]
    refine ⟨hle, hnodup, hlt, hstamp, fun x hx => ?_,
      fun t ht => hdue t (List.mem_cons_of_mem _ ht)⟩
    obtain rfl := List.mem_singleton.mp hx
    refine ⟨rfl, hdue timer List.mem_cons_self ?_⟩
    rw [hone]
    exact List.cons_ne_nil _ _

/-- The invocation changes neither the registration nor the interval of a client. -/
theorem invokeClient_clients (timer client c : ℕ) :
    ((s.invokeClient timer client).clients c).registered = (s.clients c).registered ∧
      ((s.invokeClient timer client).clients c).interval = (s.clients c).interval := by
  by_cases hc : c = client
  · subst hc
    simp [ContextTimers.invokeClient]
  · simp [ContextTimers.invokeClient, hc]

theorem invokeClient_timers (h : s.Inv) (timer client t : ℕ) :
    ((s.invokeClient timer client).timers t).interval = (s.timers t).interval ∧
      (((s.invokeClient timer client).timers t).clients = [] ∨
        ((s.invokeClient timer client).timers t).clients = (s.timers t).clients) := by
  simp only [ContextTimers.invokeClient]
  split
  · by_cases ht : t = timer
    · subst ht
      rw [Function.update_self]
      exact ⟨rfl, h.removeClient_cases t _⟩
    · rw [Function.update_of_ne ht]
      exact ⟨rfl, .inr rfl⟩
  · exact ⟨rfl, .inr rfl⟩

theorem mem_log_invokeClient {timer client : ℕ} {e : TimerInvocation}
    (he : e ∈ (s.invokeClient timer client).log) :
    e ∈ s.log ∨ e = ⟨client, s.deadline, s.clock⟩ := by
  simpa [ContextTimers.invokeClient] using he

/-- The other clients that are due have not been invoked. -/
theorem Due.invokeClient {timer client c : ℕ} (hd : s.Due c) (hc : client ≠ c) :
    (s.invokeClient timer client).Due c := by
  obtain ⟨hregistered, hinterval⟩ := invokeClient_clients (s := s) timer client c
  rw [Due, hregistered, hinterval]
  refine ⟨hd.1, fun e he heq => ?_⟩
  rcases mem_log_invokeClient he with hold | rfl
  · exact hd.2 e hold heq
  · exact absurd heq hc

/-- The deadlines of the invocations of a client that is due stay apart. -/
theorem Inv.spaced_invokeClient (h : s.Inv) (timer : ℕ) {client : ℕ} (hdue : s.Due client) :
    (s.invokeClient timer client).Spaced := by
  have hspaced : (s.log ++ [(⟨client, s.deadline, s.clock⟩ : TimerInvocation)]).Pairwise
      fun e e' => e.client = e'.client →
        e.deadline + nanoseconds (s.clients e.client).interval ≤ e'.deadline := by
    refine List.pairwise_append.mpr ⟨h.spaced, List.pairwise_singleton _ _,
      fun e he e' he' heq => ?_⟩
    obtain rfl := List.mem_singleton.mp he'
    rw [heq]
    exact hdue.2 e he heq
  refine List.Pairwise.imp (fun {e e'} hee' heq => ?_) hspaced
  rw [(invokeClient_clients timer client e.client).2]
  exact hee' heq

/-- The invocation of a client that is due. -/
theorem Inv.invokeClient (h : s.Inv) {timer client : ℕ} {executing : List (ℕ × ℕ)}
    {pending : List ℕ} (hworker : s.worker = .invoking ((timer, client) :: executing) pending) :
    ({ s.invokeClient timer client with worker := .invoking executing pending } :
      ContextTimers).Inv := by
  have hw := h.worker
  rw [hworker] at hw
  obtain ⟨hle, hnodup, hlt, hstamp, hexecuting, hpending⟩ := hw
  rw [List.map_cons, List.cons_append] at hnodup hlt hstamp
  obtain ⟨hsame, hdue⟩ := hexecuting (timer, client) List.mem_cons_self
  obtain rfl : client = timer := hsame
  obtain ⟨hnotMem, hnodup'⟩ := List.nodup_cons.mp hnodup
  have hclients := invokeClient_clients (s := s) client client
  have htimers := invokeClient_timers h client client
  have hlog {e : TimerInvocation} (he : e ∈ (s.invokeClient client client).log) :
      e ∈ s.log ∨ e = ⟨client, s.deadline, s.clock⟩ := mem_log_invokeClient he
  have hstill {c : ℕ} (hc : c ∈ executing.map Prod.fst ++ pending) (hd : s.Due c) :
      (s.invokeClient client client).Due c :=
    hd.invokeClient fun heq => hnotMem (heq ▸ hc)
  have hclientsLeft {t : ℕ} (ht : ((s.invokeClient client client).timers t).clients ≠ []) :
      (s.timers t).clients ≠ [] := by
    rw [← (htimers t).2.resolve_left ht]
    exact ht
  constructor
  · exact h.made
  · intro t
    rcases (htimers t).2 with hnil | hsame
    · exact .inl hnil
    · rw [hsame]
      exact h.clients t
  · intro t ht
    rw [(hclients t).2, (htimers t).1]
    exact h.interval t ht
  · intro t ht
    rw [(htimers t).1]
    exact h.whole t ht
  · exact h.lt
  · exact h.nodup
  · exact fun t ht => h.listed t (hclientsLeft ht)
  · intro p hp
    rw [(hclients p.2).1]
    exact h.registered p hp
  · exact h.stamp
  · intro e he
    rcases hlog he with hold | rfl
    · exact h.logged e hold
    · exact hlt client List.mem_cons_self
  · intro p hp e he heq
    rcases hlog he with hold | rfl
    · exact h.stamped p hp e hold heq
    · -- its timer is stamped with the deadline
      have hp' : p.2 = client := heq.symm
      exact (hstamp p hp (by rw [hp']; exact List.mem_cons_self)).ge
  · refine ⟨hle, hnodup', fun t ht => hlt t (List.mem_cons_of_mem _ ht),
      fun p hp ht => hstamp p hp (List.mem_cons_of_mem _ ht), fun x hx => ?_,
      fun t ht hne => ?_⟩
    · obtain ⟨hx', hd⟩ := hexecuting x (List.mem_cons_of_mem _ hx)
      exact ⟨hx', hstill (List.mem_append_left _ (List.mem_map_of_mem hx)) hd⟩
    · exact hstill (List.mem_append_right _ ht) (hpending t ht (hclientsLeft hne))
  · intro e he
    rw [(hclients e.client).1, (hclients e.client).2]
    rcases hlog he with hold | rfl
    · exact h.onTime e hold
    · exact hdue.1.trans hle
  · exact h.spaced_invokeClient client hdue

/-- Every step that joins no timer keeps the invariant. -/
theorem Inv.step (h : s.Inv) {a : TimerStep} (halone : s.Alone a) (ht : s.step a = some t) :
    t.Inv := by
  cases a with
  | tick time =>
    simp only [ContextTimers.step] at ht
    split at ht
    · rename_i hle
      obtain rfl := Option.some.inj ht
      exact h.tick hle
    · cases ht
  | register interval invocationCount =>
    obtain rfl := Option.some.inj ht
    exact h.addTimer halone
  | unregister id =>
    obtain rfl := Option.some.inj ht
    exact h.removeTimer id
  | iterate =>
    simp only [ContextTimers.step] at ht
    split at ht
    · obtain rfl := Option.some.inj ht
      exact h.getNextTimers
    · cases ht
  | expire remaining =>
    simp only [ContextTimers.step] at ht
    split at ht
    · rename_i hworker
      split at ht
      · rename_i hdeadline
        obtain rfl := Option.some.inj ht
        exact h.checkTimers hworker hdeadline.2.1 hdeadline.2.2
      · cases ht
    · cases ht
  | wake =>
    simp only [ContextTimers.step] at ht
    split at ht
    · obtain rfl := Option.some.inj ht
      exact h.move s.deadline trivial
    · cases ht
  | invokeTimer =>
    simp only [ContextTimers.step] at ht
    split at ht
    · rename_i hworker
      obtain rfl := Option.some.inj ht
      exact h.invokeTimer hworker
    · cases ht
  | invokeClient =>
    simp only [ContextTimers.step] at ht
    split at ht
    · rename_i hworker
      obtain rfl := Option.some.inj ht
      exact h.invokeClient hworker
    · cases ht
  | endIteration =>
    simp only [ContextTimers.step] at ht
    split at ht
    · obtain rfl := Option.some.inj ht
      exact h.move s.deadline trivial
    · cases ht

/-! ### Whole runs -/

/-- **No early timer.** In every run in which no registration joins a timer that has clients and
all intervals are whole numbers of nanoseconds, no client is invoked before its interval has
elapsed since its registration, and the deadlines of its invocations are at least its interval
apart. -/
theorem onTime_of_alone (clock deadline : ℚ) (nextId : ℕ) (l : List TimerStep)
    (halone : Guarded ContextTimers.step Alone (init clock deadline nextId) l) :
    Always ContextTimers.step (fun s => s.OnTime ∧ s.Spaced) (init clock deadline nextId) l := by
  intro l' t hl' ht
  have hinv := halone.always (fun s a t h hok ht => Inv.step h hok ht)
    (inv_init clock deadline nextId) l' t hl' ht
  exact ⟨hinv.onTime, hinv.spaced⟩

/-- Clients that are invoked a given number of times do not join timers. -/
theorem guarded_of_counted {l : List TimerStep}
    (h : ∀ interval invocationCount, .register interval invocationCount ∈ l →
      WholeInterval interval ∧ invocationCount ≠ 0) :
    Guarded ContextTimers.step Alone s l := by
  induction l generalizing s with
  | nil => trivial
  | cons a l ih =>
    intro t _
    refine ⟨?_, ih fun interval invocationCount hmem =>
      h interval invocationCount (List.mem_cons_of_mem _ hmem)⟩
    cases a with
    | register interval invocationCount =>
      obtain ⟨hwhole, hcount⟩ := h interval invocationCount List.mem_cons_self
      refine ⟨hwhole, fun found hfound => ?_⟩
      rw [findTimer, if_neg hcount] at hfound
      cases hfound
    | _ => trivial

/-- Two clients with an interval of ten milliseconds, the second registered when nine have
elapsed; both are to be invoked `invocationCount` times. -/
def tenMilliseconds (invocationCount : ℕ) : List TimerStep :=
  [.register 10 invocationCount, .tick 9000000, .register 10 invocationCount, .iterate,
    .tick 10000000, .expire [], .invokeTimer, .invokeClient]

theorem onTime_of_alone_tenMilliseconds :
    Guarded ContextTimers.step Alone (init 0 0 0) (tenMilliseconds 1) ∧
      ((run ContextTimers.step (init 0 0 0) (tenMilliseconds 1)).map fun s =>
        s.log.map fun e => (e.client, e.time)) = some [(0, 10000000)] ∧
      Always ContextTimers.step (fun s => s.OnTime ∧ s.Spaced) (init 0 0 0)
        (tenMilliseconds 1) := by
  have hwhole : WholeInterval 10 := .inr ⟨10000000, by norm_num, by norm_num [nanoseconds]⟩
  have halone : Guarded ContextTimers.step Alone (init 0 0 0) (tenMilliseconds 1) := by
    refine guarded_of_counted fun interval invocationCount hmem => ?_
    simp only [tenMilliseconds, List.mem_cons, TimerStep.register.injEq, reduceCtorEq, false_or,
      List.not_mem_nil, or_false] at hmem
    rcases hmem with ⟨rfl, rfl⟩ | ⟨rfl, rfl⟩
    · exact ⟨hwhole, Nat.one_ne_zero⟩
    · exact ⟨hwhole, Nat.one_ne_zero⟩
  exact ⟨halone, by decide +kernel, onTime_of_alone 0 0 0 _ halone⟩

/-- The second of two clients that are invoked indefinitely joins the timer of the first, and is
invoked one millisecond after its registration. -/
theorem not_onTime_joined :
    ¬ ∀ (clock deadline : ℚ) (nextId : ℕ) (l : List TimerStep),
      Always ContextTimers.step (fun s => s.OnTime ∧ s.Spaced) (init clock deadline nextId)
        l := by
  intro h
  have hrun : ((run ContextTimers.step (init 0 0 0)
      (tenMilliseconds 0 ++ [.invokeClient])).map fun s =>
        (s.log.map fun e => (e.client, e.time), (s.clients 1).registered,
          (s.clients 1).interval)) =
      some ([(0, 10000000), (1, 10000000)], 9000000, 10) := by
    decide +kernel
  obtain ⟨s, hs, heq⟩ := Option.map_eq_some_iff.mp hrun
  obtain ⟨hlog, hclient⟩ := Prod.mk.inj heq
  obtain ⟨hregistered, hinterval⟩ := Prod.mk.inj hclient
  have hmem : ((1 : ℕ), (10000000 : ℚ)) ∈ s.log.map fun e => (e.client, e.time) := by
    rw [hlog]
    simp
  obtain ⟨e, he, hentry⟩ := List.mem_map.mp hmem
  obtain ⟨hone, htime⟩ := Prod.mk.inj hentry
  have hearly := (h 0 0 0 _ _ s List.prefix_rfl hs).1 e he
  rw [hone, htime, hregistered, hinterval, nanoseconds] at hearly
  norm_num at hearly

end ContextTimers

end UtilityFramework
