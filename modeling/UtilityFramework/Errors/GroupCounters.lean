import Mathlib.Algebra.BigOperators.Group.Finset.Basic
import Mathlib.Data.Fintype.Basic
import UtilityFramework.Errors.ErrorsManager

/-!
# The counters of the error groups

The number in a group's row counts notifications: one is added for each notification of an error
that exists and taken off for each of an error that does not. Every update of an error is
notified, whether or not it changes the status, so that the number is right precisely as long as
each update changes the status in the way that its notification is counted
(`settled_iff_accounted`).
-/

namespace UtilityFramework

open Transition ErrorStatusEnum

variable {ε γ τ : Type*} (c : ErrorsConfig ε γ τ)

namespace ErrorsConfig

/-! ### Updates -/

section Updates

/-- An update makes the error exist. -/
def Appears (error : ErrorStatusStruct ε) (errorRow : ε) (errorStatus : StatusEnum)
    (now : UInt64) : Prop :=
  errorStatus = .statusFail ∧ ¬ c.StaysPendable error errorRow now ∧
    c.IsSet (c.countFail error errorRow now) errorRow

/-- An update leaves the error pending, or makes it so. -/
def StaysPending (error : ErrorStatusStruct ε) (errorRow : ε) (errorStatus : StatusEnum)
    (now : UInt64) : Prop :=
  (error.status.Pending ∧ errorStatus ≠ .statusNone) ∨
    (errorStatus = .statusFail ∧ c.StaysPendable error errorRow now)

/-- The condition on an update of an error, for a group that lists it `times` times and of which
`n` errors exist: an error that exists does not fail again, and one that does not appears, is
left pending, or is an error of a group of which none exists. -/
def AccountedIn (error : ErrorStatusStruct ε) (errorRow : ε) (errorStatus : StatusEnum)
    (now : UInt64) (times n : ℕ) : Prop :=
  (error.status.Existing → errorStatus ≠ .statusFail ∧ (times = 1 ∨ n = 1)) ∧
    (¬ error.status.Existing → c.Appears error errorRow errorStatus now → times = 1) ∧
    (¬ error.status.Existing → ¬ c.Appears error errorRow errorStatus now →
      c.StaysPending error errorRow errorStatus now ∨ n = 0)

/-- What holds of an error's row at any time. -/
structure ErrorInv (error : ErrorStatusStruct ε) : Prop where
  valid : error.valid = true
  pendable : error.status.Existing → error.pendable = false

variable {c} {error : ErrorStatusStruct ε} {e : ε} {status : StatusEnum} {now : UInt64}

theorem setFail_frame (error : ErrorStatusStruct ε) (e : ε) :
    (c.setFail error e).pendable = error.pendable ∧ (c.setFail error e).valid = error.valid := by
  rw [setFail]
  split_ifs
  · exact ⟨rfl, rfl⟩
  · exact ⟨rfl, rfl⟩

theorem pendFail_frame (error : ErrorStatusStruct ε) :
    (pendFail error).pendable = error.pendable ∧ (pendFail error).valid = error.valid := by
  rw [pendFail]
  split_ifs
  · exact ⟨rfl, rfl⟩
  · exact ⟨rfl, rfl⟩

/-- An error that fails while it is still pendable. -/
theorem pending_of_staysPendable (h : c.StaysPendable error e now) :
    (c.newStatus error e now .statusFail).status.Pending := by
  have hpendable : (c.setFail (c.countFail error e now) e).pendable = true :=
    (setFail_frame _ e).1.trans (decide_eq_true h)
  rw [newStatus, pendFail, if_pos hpendable]
  exact pending_pend _ _

/-- An error that fails and is not pendable any longer. -/
theorem status_of_not_staysPendable (h : ¬ c.StaysPendable error e now) :
    (c.newStatus error e now .statusFail).status =
      if c.IsSet (c.countFail error e now) e then error.status.set else error.status := by
  have hpendable : (c.setFail (c.countFail error e now) e).pendable = false :=
    (setFail_frame _ e).1.trans (decide_eq_false h)
  rw [newStatus, pendFail, hpendable, if_neg Bool.false_ne_true, setFail]
  split_ifs
  · rfl
  · rfl

/-- An error that exists is set to its status. -/
theorem set_of_existing {status : ErrorStatusEnum} (h : status.Existing) :
    status.set = status := by
  rcases h with rfl | rfl
  · rfl
  · rfl

variable (e status now) in
/-- **The status after an update** of an error that exists. -/
theorem newStatus_of_existing (hinv : ErrorInv error) (h : error.status.Existing) :
    (status = .statusFail ∧ (c.newStatus error e now status).status.Existing) ∨
      (status ≠ .statusFail ∧ (c.newStatus error e now status).status.Gone) := by
  cases status with
  | statusOk =>
    rw [newStatus, if_pos h]
    exact .inr ⟨by decide, .inl rfl⟩
  | statusNone => exact .inr ⟨by decide, .inr rfl⟩
  | statusFail =>
    have hstays : ¬ c.StaysPendable error e now := fun hstays =>
      absurd ((hinv.pendable h).symm.trans hstays.1) (by decide)
    refine .inl ⟨rfl, ?_⟩
    rw [status_of_not_staysPendable hstays, set_of_existing h, ite_self]
    exact h

variable (e status now) in
/-- **The status after an update** of an error that does not exist. -/
theorem newStatus_of_not_existing (h : ¬ error.status.Existing) :
    (c.Appears error e status now ∧ (c.newStatus error e now status).status.Existing) ∨
      (¬ c.Appears error e status now ∧ c.StaysPending error e status now ∧
        (c.newStatus error e now status).status.Pending) ∨
      (¬ c.Appears error e status now ∧ ¬ c.StaysPending error e status now ∧
        (c.newStatus error e now status).status.Gone) := by
  cases status with
  | statusOk =>
    have hnot : ¬ c.Appears error e .statusOk now := fun h => absurd h.1 (by decide)
    rw [newStatus, if_neg h]
    by_cases hpending : error.status.Pending
    · exact .inr (.inl ⟨hnot, .inl ⟨hpending, by decide⟩, hpending⟩)
    · refine .inr (.inr ⟨hnot, ?_, (gone_iff _).mpr ⟨h, hpending⟩⟩)
      rintro (hstays | hstays)
      · exact hpending hstays.1
      · exact absurd hstays.1 (by decide)
  | statusNone =>
    refine .inr (.inr ⟨fun h => absurd h.1 (by decide), ?_, .inr rfl⟩)
    rintro (hstays | hstays)
    · exact hstays.2 rfl
    · exact absurd hstays.1 (by decide)
  | statusFail =>
    by_cases hstays : c.StaysPendable error e now
    · exact .inr (.inl ⟨fun h => h.2.1 hstays, .inr ⟨rfl, hstays⟩,
        pending_of_staysPendable hstays⟩)
    rw [status_of_not_staysPendable hstays]
    by_cases hset : c.IsSet (c.countFail error e now) e
    · rw [if_pos hset]
      exact .inl ⟨⟨rfl, hstays, hset⟩, existing_set _⟩
    rw [if_neg hset]
    have hnot : ¬ c.Appears error e .statusFail now := fun h => hset h.2.2
    by_cases hpending : error.status.Pending
    · exact .inr (.inl ⟨hnot, .inl ⟨hpending, by decide⟩, hpending⟩)
    · refine .inr (.inr ⟨hnot, ?_, (gone_iff _).mpr ⟨h, hpending⟩⟩)
      rintro (hstays' | hstays')
      · exact hpending hstays'.1
      · exact hstays hstays'.2

theorem valid_newStatus (error : ErrorStatusStruct ε) (e : ε) (now : UInt64)
    (status : StatusEnum) : (c.newStatus error e now status).valid = error.valid := by
  cases status with
  | statusOk =>
    rw [newStatus]
    split_ifs
    · rfl
    · rfl
  | statusNone => rfl
  | statusFail =>
    rw [newStatus]
    exact (pendFail_frame _).2.trans (setFail_frame _ e).2

/-- An error that exists is not pendable. -/
theorem pendable_newStatus (h : (c.newStatus error e now status).status.Existing) :
    (c.newStatus error e now status).pendable = false := by
  cases status with
  | statusOk =>
    rw [newStatus] at h
    split_ifs at h with hold
    · exact absurd h (show ¬ vanished.Existing by decide)
    · exact absurd h hold
  | statusNone => exact absurd h (show ¬ notExist.Existing by decide)
  | statusFail =>
    rw [newStatus, (pendFail_frame _).1, (setFail_frame _ e).1]
    exact decide_eq_false fun hstays => h.not_pending (pending_of_staysPendable hstays)

/-- What an update writes to an error's row. -/
theorem updateError_eq (hinv : ErrorInv error) (e : ε) (status : StatusEnum) (now : UInt64) :
    ∃ error', c.updateError error e status now = some error' ∧
      error'.status = (c.newStatus error e now status).status ∧ ErrorInv error' :=
  ⟨_, if_pos hinv.valid, rfl, (valid_newStatus error e now status).trans hinv.valid,
    pendable_newStatus⟩

end Updates

/-! ### Notifications -/

/-- What the notifications of an error that a group lists `times` times do to its number. -/
def change (status : ErrorStatusEnum) (n times : ℕ) : ℕ :=
  if status.Existing then n + times else if status.Gone then n - times else n

theorem change_change (status : ErrorStatusEnum) (n m k : ℕ) :
    change status (change status n m) k = change status n (m + k) := by
  rw [change, change, change]
  split_ifs
  · omega
  · omega
  · rfl

section Update

variable {c : ErrorsConfig ε γ τ} {error : ErrorStatusStruct ε} {e : ε} {status : StatusEnum}
  {now : UInt64} {times n n' : ℕ}

/-- An update of an error that exists takes it off the number unless it fails again. -/
theorem change_of_existing (hinv : ErrorInv error) (hold : error.status.Existing)
    (htimes : 0 < times)
    (hn : n' + 1 = n + if (c.newStatus error e now status).status.Existing then 1 else 0) :
    change (c.newStatus error e now status).status n times = n' ↔
      c.AccountedIn error e status now times n := by
  rw [change, AccountedIn]
  rcases newStatus_of_existing (c := c) e status now hinv hold with ⟨hfail, hnew⟩ | ⟨hfail, hnew⟩
  · rw [if_pos hnew] at hn ⊢
    -- It failed again, and is counted once more.
    refine iff_of_false (by omega) fun h => (h.1 hold).1 hfail
  · have hnot := ((gone_iff _).mp hnew).1
    rw [if_neg hnot] at hn
    rw [if_neg hnot, if_pos hnew]
    constructor
    · intro h
      exact ⟨fun _ => ⟨hfail, by omega⟩, fun h => absurd hold h, fun h => absurd hold h⟩
    · intro h
      have := (h.1 hold).2
      omega

/-- An update of an error that does not exist adds it, leaves it pending or takes it off. -/
theorem change_of_not_existing (hold : ¬ error.status.Existing) (htimes : 0 < times)
    (hn : n' = n + if (c.newStatus error e now status).status.Existing then 1 else 0) :
    change (c.newStatus error e now status).status n times = n' ↔
      c.AccountedIn error e status now times n := by
  rw [change, AccountedIn]
  rcases newStatus_of_not_existing (c := c) e status now hold with
    ⟨happears, hnew⟩ | ⟨happears, hstays, hnew⟩ | ⟨happears, hstays, hnew⟩
  · rw [if_pos hnew] at hn ⊢
    constructor
    · intro h
      exact ⟨fun h => absurd h hold, fun _ _ => by omega, fun _ h => absurd happears h⟩
    · intro h
      have := h.2.1 hold happears
      omega
  · have hnot : ¬ (c.newStatus error e now status).status.Existing :=
      fun h => h.not_pending hnew
    have hgone : ¬ (c.newStatus error e now status).status.Gone :=
      fun h => ((gone_iff _).mp h).2 hnew
    rw [if_neg hnot] at hn
    rw [if_neg hnot, if_neg hgone]
    exact iff_of_true (by omega)
      ⟨fun h => absurd h hold, fun _ h => absurd h happears, fun _ _ => .inl hstays⟩
  · have hnot := ((gone_iff _).mp hnew).1
    rw [if_neg hnot] at hn
    rw [if_neg hnot, if_pos hnew]
    constructor
    · intro h
      exact ⟨fun h => absurd h hold, fun _ h => absurd h happears, fun _ _ => .inr (by omega)⟩
    · intro h
      have := (h.2.2 hold happears).resolve_left hstays
      omega

/-- **One update and its notification** keep the number of a group right precisely if the update
meets the condition. -/
theorem change_newStatus_iff (hinv : ErrorInv error) (htimes : 0 < times)
    (hn : n' + (if error.status.Existing then 1 else 0) =
      n + if (c.newStatus error e now status).status.Existing then 1 else 0) :
    change (c.newStatus error e now status).status n times = n' ↔
      c.AccountedIn error e status now times n := by
  by_cases hold : error.status.Existing
  · rw [if_pos hold] at hn
    exact change_of_existing hinv hold htimes hn
  · rw [if_neg hold] at hn
    exact change_of_not_existing hold htimes hn

end Update

section Groups

variable {c}

theorem numOfExistingErrors_updateGroupError (group : γ) (row : ErrorGroupStruct)
    (error : ErrorStatusStruct ε) : (c.updateGroupError group row error).numOfExistingErrors =
      change error.status row.numOfExistingErrors 1 := by
  rw [updateGroupError, change]
  by_cases hexisting : error.status.Existing
  · rw [if_pos hexisting, if_pos hexisting]
  rw [if_neg hexisting, if_neg hexisting]
  by_cases hgone : error.status.Gone
  · rw [if_pos hgone, if_pos hgone]
    by_cases hpos : 0 < row.numOfExistingErrors
    · rw [if_pos hpos]
    · rw [if_neg hpos]
      omega
  · rw [if_neg hgone, if_neg hgone]

variable [DecidableEq γ]

theorem numOfExistingErrors_updateGroups (groups : γ → ErrorGroupStruct) (e : ε)
    (error : ErrorStatusStruct ε) (group : γ) :
    (c.updateGroups groups e error group).numOfExistingErrors =
      change error.status (groups group).numOfExistingErrors ((c.groups e).count group) := by
  rw [updateGroups]
  induction c.groups e generalizing groups with
  | nil =>
    rw [List.foldl_nil, List.count_nil, change]
    split_ifs <;> rfl
  | cons g l ih =>
    rw [List.foldl_cons, ih]
    by_cases hg : g = group
    · subst hg
      rw [Function.update_self, numOfExistingErrors_updateGroupError, change_change,
        List.count_cons_self, Nat.add_comm 1]
    · rw [Function.update_of_ne (Ne.symm hg), List.count_cons_of_ne hg]

variable (c) in
/-- The group rows once the notifications of errors' rows that wait have been processed. -/
def settle (groups : γ → ErrorGroupStruct) : List (ErrorsJob ε) → γ → ErrorGroupStruct
  | [] => groups
  | .updateError _ _ :: queue => settle groups queue
  | .updateGroups e error :: queue => settle (c.updateGroups groups e error) queue

theorem settle_append (groups : γ → ErrorGroupStruct) (l l' : List (ErrorsJob ε)) :
    c.settle groups (l ++ l') = c.settle (c.settle groups l) l' := by
  induction l generalizing groups with
  | nil => rfl
  | cons job l ih =>
    cases job with
    | updateError e status => exact ih groups
    | updateGroups e error => exact ih _

theorem settle_updateErrors (groups : γ → ErrorGroupStruct) (l : List ε) (status : StatusEnum) :
    c.settle groups (l.map fun e => .updateError e status) = groups := by
  induction l with
  | nil => rfl
  | cons e l ih => exact ih

end Groups

/-! ### The errors that exist -/

section Existing

variable [DecidableEq γ] [Fintype ε] [DecidableEq ε]

/-- The number of errors of a group that exist. -/
def existing (errors : ε → ErrorStatusStruct ε) (group : γ) : ℕ :=
  (Finset.univ.filter fun e => group ∈ c.groups e ∧ (errors e).status.Existing).card

/-- How updating an error changes the number of errors of a group that exist. -/
theorem existing_update {c : ErrorsConfig ε γ τ} (errors : ε → ErrorStatusStruct ε) (e : ε)
    (error : ErrorStatusStruct ε) (group : γ) :
    c.existing (Function.update errors e error) group +
        (if group ∈ c.groups e ∧ (errors e).status.Existing then 1 else 0) =
      c.existing errors group +
        (if group ∈ c.groups e ∧ error.status.Existing then 1 else 0) := by
  have hsplit (errors : ε → ErrorStatusStruct ε) : c.existing errors group =
      ((Finset.univ.erase e).filter fun e' =>
        group ∈ c.groups e' ∧ (errors e').status.Existing).card +
      if group ∈ c.groups e ∧ (errors e).status.Existing then 1 else 0 := by
    rw [existing, ← Finset.insert_erase (Finset.mem_univ e), Finset.filter_insert]
    split_ifs
    · rw [Finset.card_insert_of_notMem (by simp), Finset.insert_erase (Finset.mem_univ e)]
    · rw [Finset.insert_erase (Finset.mem_univ e), Nat.add_zero]
  have hrest : ((Finset.univ.erase e).filter fun e' =>
        group ∈ c.groups e' ∧ (Function.update errors e error e').status.Existing) =
      (Finset.univ.erase e).filter fun e' =>
        group ∈ c.groups e' ∧ (errors e').status.Existing := by
    refine Finset.filter_congr fun e' he' => ?_
    rw [Function.update_of_ne (Finset.ne_of_mem_erase he')]
  rw [hsplit, hsplit errors, hrest, Function.update_self]
  omega

end Existing

end ErrorsConfig

/-! ### Runs -/

namespace ErrorsManager

variable [DecidableEq γ] [Fintype ε] [DecidableEq ε] [DecidableEq τ]

/-- Once all notifications have been processed, each group's number is that of its errors that
exist. -/
def CountsRight (s : ErrorsManager ε γ τ) : Prop :=
  s.queue = [] → ∀ group, (s.groups group).numOfExistingErrors = c.existing s.errors group

/-- Each group's number will be right once the notifications of errors' rows that wait have been
processed. -/
def Settled (s : ErrorsManager ε γ τ) : Prop :=
  ∀ group, (c.settle s.groups s.queue group).numOfExistingErrors = c.existing s.errors group

/-- The condition on a step: if it updates an error, the update meets the condition for each
group of the error. -/
def Accounted (s : ErrorsManager ε γ τ) : ErrorsAction τ → Prop
  | .write _ _ _ => True
  | .work now =>
    match s.queue with
    | .updateError e status :: _ => ∀ group ∈ c.groups e,
        c.AccountedIn (s.errors e) e status now ((c.groups e).count group)
          (c.existing s.errors group)
    | _ => True

/-- What holds of the errors' rows at any time. -/
def Inv (s : ErrorsManager ε γ τ) : Prop := ∀ e, ErrorsConfig.ErrorInv (s.errors e)

section Steps

variable {c} {s t : ErrorsManager ε γ τ}

/-- **What a step does.** It does not change what the groups' numbers will be, or it updates an
error, whose notification is put at the end of the queue. -/
theorem step_cases {a : ErrorsAction τ} (h : Inv s) (ht : s.step c a = some t) :
    (t.errors = s.errors ∧
      c.settle t.groups t.queue = c.settle s.groups s.queue ∧ s.Accounted c a) ∨
    ∃ e status queue now error, a = .work now ∧ s.queue = .updateError e status :: queue ∧
      error.status = (c.newStatus (s.errors e) e now status).status ∧
      ErrorsConfig.ErrorInv error ∧
      t = { s with
        errors := Function.update s.errors e error
        queue := queue ++ [.updateGroups e error] } := by
  cases a with
  | write trigger status forceReport =>
    rw [step] at ht
    split_ifs at ht with hsame
    · obtain rfl := Option.some.inj ht
      exact .inl ⟨rfl, rfl, trivial⟩
    · obtain rfl := Option.some.inj ht
      refine .inl ⟨rfl, ?_, trivial⟩
      rw [ErrorsConfig.settle_append, ErrorsConfig.settle_updateErrors]
  | work now =>
    rw [step] at ht
    cases hqueue : s.queue with
    | nil =>
      rw [hqueue] at ht
      cases ht
    | cons job queue =>
      rw [hqueue] at ht
      cases job with
      | updateGroups e error =>
        obtain rfl := Option.some.inj ht
        refine .inl ⟨rfl, rfl, ?_⟩
        rw [Accounted, hqueue]
        trivial
      | updateError e status =>
        dsimp only at ht
        obtain ⟨error, heq, hstatus, hinv⟩ :=
          ErrorsConfig.updateError_eq (c := c) (h e) e status now
        rw [heq] at ht
        obtain rfl := Option.some.inj ht
        exact .inr ⟨e, status, queue, now, error, rfl, rfl, hstatus, hinv, rfl⟩

theorem inv_step {a : ErrorsAction τ} (h : Inv s) (ht : s.step c a = some t) : Inv t := by
  rcases step_cases h ht with ⟨herrors, -⟩ | ⟨e, status, queue, now, error, -, -, -, hinv, rfl⟩
  · intro e
    rw [herrors]
    exact h e
  · intro e'
    change ErrorsConfig.ErrorInv (Function.update s.errors e error e')
    by_cases he : e' = e
    · subst he
      rw [Function.update_self]
      exact hinv
    · rw [Function.update_of_ne he]
      exact h e'

/-- **One step** keeps the numbers right precisely if it meets the condition. -/
theorem settled_step_iff {a : ErrorsAction τ} (h : Inv s) (hs : Settled c s)
    (ht : s.step c a = some t) : Settled c t ↔ s.Accounted c a := by
  rcases step_cases h ht with ⟨herrors, hsettle, hok⟩ | ⟨e, status, queue, now, error, rfl,
    hqueue, hstatus, -, rfl⟩
  · refine iff_of_true (fun group => ?_) hok
    rw [hsettle, herrors]
    exact hs group
  · rw [Settled, Accounted, hqueue]
    refine forall_congr' fun group => ?_
    have hsettle : c.settle s.groups s.queue = c.settle s.groups queue := by
      rw [hqueue]
      rfl
    have hcount := hs group
    rw [hsettle] at hcount
    have hupdate := ErrorsConfig.existing_update (c := c) s.errors e error group
    dsimp only
    rw [ErrorsConfig.settle_append]
    change (c.updateGroups (c.settle s.groups queue) e error group).numOfExistingErrors = _ ↔ _
    rw [ErrorsConfig.numOfExistingErrors_updateGroups, hcount, hstatus]
    rw [hstatus] at hupdate
    -- Only the groups that list the error get its notification.
    by_cases hmem : group ∈ c.groups e
    · simp only [hmem, true_and] at hupdate
      rw [ErrorsConfig.change_newStatus_iff (h e) (List.count_pos_iff.mpr hmem) hupdate]
      exact ⟨fun h _ => h, fun h => h hmem⟩
    · simp only [hmem, false_and, if_false, Nat.add_zero] at hupdate
      refine iff_of_true ?_ fun hg => absurd hg hmem
      rw [List.count_eq_zero_of_not_mem hmem, hupdate, ErrorsConfig.change]
      split_ifs
      · rfl
      · rfl
      · rfl

end Steps

/-- **The counters of the error groups.** For all errors, groups and triggers, and any sequence
of steps, the groups' numbers will always be right once the notifications that wait have been
processed precisely if each update of an error meets the condition; and then they are whenever
all notifications have been processed. -/
theorem settled_iff_accounted (triggers : τ → Option StatusEnum) (start : UInt64)
    (l : List (ErrorsAction τ)) :
    (Always (step c) (Settled c) (init c triggers start) l ↔
      Guarded (step c) (Accounted c) (init c triggers start) l) ∧
    (Guarded (step c) (Accounted c) (init c triggers start) l →
      Always (step c) (CountsRight c) (init c triggers start) l) := by
  have hinv : Inv (init c triggers start) := fun e =>
    ⟨rfl, fun h => absurd h (show ¬ notExist.Existing by decide)⟩
  have hsettled : Settled c (init c triggers start) := by
    intro group
    change 0 = c.existing (init c triggers start).errors group
    rw [ErrorsConfig.existing, Finset.filter_false_of_mem, Finset.card_empty]
    exact fun e _ h => absurd h.2 (show ¬ notExist.Existing by decide)
  have hiff : Always (step c) (Settled c) (init c triggers start) l ↔
      Guarded (step c) (Accounted c) (init c triggers start) l :=
    always_iff_guarded l (J := Inv) (fun _ _ _ h ht => inv_step h ht)
      (fun _ _ _ h hs ht => settled_step_iff h hs ht) hinv hsettled
  refine ⟨hiff, fun hguard l' t hl' ht hempty group => ?_⟩
  have hright := hiff.mpr hguard l' t hl' ht group
  rw [hempty] at hright
  exact hright

/-- One error, in one group, with one trigger row. -/
def sampleConfig : ErrorsConfig Unit Unit Unit where
  description _ := "RTW FAIL"
  repeatsToSet _ := 0
  delayToSet _ := 0
  groups _ := [()]
  isComplex _ := false
  subscribers _ := [()]

/-- A trigger fails twice, and its error is counted twice. -/
theorem second_failure_counted_again :
    ¬ Always (step sampleConfig) (CountsRight sampleConfig) (init sampleConfig (fun _ => none) 0)
      [.write () .statusFail true, .work 1, .work 2, .write () .statusFail true, .work 3,
        .work 4] := by
  intro h
  have hrun : (run (step sampleConfig) (init sampleConfig (fun _ => none) 0)
      [.write () .statusFail true, .work 1, .work 2, .write () .statusFail true, .work 3,
        .work 4]).any (fun t => t.queue.isEmpty &&
          decide ((t.groups ()).numOfExistingErrors ≠ sampleConfig.existing t.errors ())) =
        true := by decide
  obtain ⟨t, ht, hbad⟩ := (Option.any_eq_true _ _).mp hrun
  rw [Bool.and_eq_true, List.isEmpty_iff, decide_eq_true_iff] at hbad
  exact hbad.2 (h _ t (List.prefix_refl _) ht hbad.1 ())

end ErrorsManager

end UtilityFramework
