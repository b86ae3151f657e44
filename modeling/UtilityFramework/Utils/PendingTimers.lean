import UtilityFramework.Utils.TimersOnTime

/-!
# The check of the pending timers

`check_timers` goes through the timers that `get_next_timers` has chosen. It looks each of them up
in `m_timers`, where a timer that is still registered gets the deadline as its time stamp, and
collects iterators to the others, which it erases from the chosen ones afterwards, from front to
back. An erasure moves what is behind it, and the iterators that are still to come are not moved
along; one that is at the end by then makes the erasure undefined. `checked_iff` says when that
does no harm: if at most one timer is to be erased.
-/

namespace UtilityFramework

open Transition

/-! ### Erasing at stale positions -/

section Erase

universe u

variable {α : Type u}

/-- What is before all the positions stays. -/
theorem foldl_eraseIdx_append (front l : List α) {indices : List ℕ}
    (h : ∀ i ∈ indices, front.length ≤ i) :
    ∃ l', indices.foldl List.eraseIdx (front ++ l) = front ++ l' := by
  induction indices generalizing l with
  | nil => exact ⟨l, rfl⟩
  | cons i indices ih =>
    obtain ⟨hi, hindices⟩ := List.forall_mem_cons.mp h
    rw [List.foldl_cons, List.eraseIdx_append_of_length_le hi]
    exact ih _ hindices

/-- The first element that is to go, with the positions of the others. -/
theorem exists_findIdxs_eq_cons {p : α → Bool} {l : List α} (h : 0 < l.countP p) (start : ℕ) :
    ∃ front x back, l = front ++ x :: back ∧ (∀ a ∈ front, p a = false) ∧ p x = true ∧
      l.findIdxs p start =
        (start + front.length) :: back.findIdxs p (start + front.length + 1) := by
  obtain ⟨x, hx⟩ := Option.isSome_iff_exists.mp
    (List.find?_isSome.mpr (List.countP_pos_iff.mp h))
  obtain ⟨hpx, front, back, rfl, hfront⟩ := List.find?_eq_some_iff_append.mp hx
  have hnone : ∀ a ∈ front, p a = false := fun a ha => by simpa using hfront a ha
  refine ⟨front, x, back, rfl, hnone, hpx, ?_⟩
  rw [List.findIdxs_append, List.findIdxs_eq_nil_iff.mpr hnone, List.nil_append,
    List.findIdxs_cons, if_pos hpx]

/-- **Stale positions.** Erasing the positions of some elements one after the other leaves the
other elements if and only if there is at most one position. -/
theorem foldl_eraseIdx_findIdxs_iff (p : α → Bool) (l : List α) :
    (l.findIdxs p).foldl List.eraseIdx l = l.filter (fun a => !p a) ↔ l.countP p ≤ 1 := by
  rcases Nat.eq_zero_or_pos (l.countP p) with hzero | hpos
  · have hnone : ∀ a ∈ l, p a = false := fun a ha =>
      Bool.eq_false_iff.mpr (List.countP_eq_zero.mp hzero a ha)
    refine iff_of_true ?_ (hzero.trans_le (Nat.zero_le 1))
    rw [List.findIdxs_eq_nil_iff.mpr hnone]
    exact (List.filter_eq_self.mpr fun a ha => by rw [hnone a ha]; rfl).symm
  · obtain ⟨front, x, back, rfl, hfront, hx, hidxs⟩ := exists_findIdxs_eq_cons hpos 0
    have hcount : (front ++ x :: back).countP p = back.countP p + 1 := by
      rw [List.countP_append, List.countP_cons_of_pos hx, List.countP_eq_zero.mpr
        (fun a ha => by rw [hfront a ha]; exact Bool.false_ne_true), Nat.zero_add]
    have herase : (front ++ x :: back).eraseIdx (0 + front.length) = front ++ back := by
      rw [Nat.zero_add, List.eraseIdx_append_of_length_le le_rfl, Nat.sub_self,
        List.eraseIdx_cons_zero]
    rw [hidxs, List.foldl_cons, herase, hcount]
    rcases Nat.eq_zero_or_pos (back.countP p) with hzero | hpos'
    · have hback : ∀ a ∈ back, p a = false := fun a ha =>
        Bool.eq_false_iff.mpr (List.countP_eq_zero.mp hzero a ha)
      refine iff_of_true ?_ (by rw [hzero])
      rw [List.findIdxs_eq_nil_iff.mpr hback, List.filter_append, List.filter_cons_of_neg
        (by simp [hx]), List.filter_eq_self.mpr (fun a ha => by rw [hfront a ha]; rfl),
        List.filter_eq_self.mpr (fun a ha => by rw [hback a ha]; rfl)]
      rfl
    · -- the second element that is to go has moved before its position, and stays
      obtain ⟨front', y, back', rfl, -, hy, hidxs'⟩ :=
        exists_findIdxs_eq_cons hpos' (0 + front.length + 1)
      refine iff_of_false (fun heq => ?_) (by omega)
      have hstale : ∀ i ∈ (front' ++ y :: back').findIdxs p (0 + front.length + 1),
          (front ++ (front' ++ [y])).length ≤ i := by
        intro i hi
        have hlen : (front ++ (front' ++ [y])).length = 0 + front.length + 1 + front'.length := by
          simp only [List.length_append, List.length_singleton]
          omega
        rw [hlen]
        rw [hidxs'] at hi
        rcases List.mem_cons.mp hi with rfl | hi
        · exact le_rfl
        · exact (Nat.le_succ _).trans (List.ge_of_mem_findIdxs i hi)
      obtain ⟨l', hl'⟩ := foldl_eraseIdx_append (front ++ (front' ++ [y])) back' hstale
      have hsplit : front ++ (front' ++ y :: back') = front ++ (front' ++ [y]) ++ back' := by
        simp
      rw [hsplit, hl'] at heq
      have hmem : y ∈ (front ++ x :: (front' ++ y :: back')).filter fun a => !p a :=
        heq ▸ by simp
      rw [List.mem_filter, hy] at hmem
      exact Bool.false_ne_true hmem.2

end Erase

/-! ### The loops -/

deriving instance DecidableEq for TimerWorker

namespace ContextTimers

/-- The search for a timer in `m_timers`, which swaps the new time stamp in. -/
def swapStamp (deadline : ℚ) (timer : ℕ) : List (ℚ × ℕ) → Option (List (ℚ × ℕ))
  | [] => none
  | (stamp, t) :: mTimers =>
    if timer = t then some ((deadline, t) :: mTimers)
    else (swapStamp deadline timer mTimers).map ((stamp, t) :: ·)

/-- The loop over the pending timers, from the one at `itX` on: `m_timers`, and the positions in
`removed_timers`. -/
def stampTimers (deadline : ℚ) (itX : ℕ) (mTimers : List (ℚ × ℕ)) (removedTimers : List ℕ) :
    List ℕ → List (ℚ × ℕ) × List ℕ
  | [] => (mTimers, removedTimers)
  | timer :: timers =>
    match swapStamp deadline timer mTimers with
    | some mTimers' => stampTimers deadline (itX + 1) mTimers' removedTimers timers
    | none => stampTimers deadline (itX + 1) mTimers (removedTimers ++ [itX]) timers

/-- `check_timers`: the loop over the pending timers, and the erasures. -/
def checkPending (s : ContextTimers) (pending remaining : List ℕ) : ContextTimers :=
  let r := stampTimers s.deadline 0 s.mTimers [] pending
  { s with mTimers := r.1, worker := .invoking [] ((eraseTimers pending r.2).getD remaining) }

/-- The erasures are defined, the pending timers that are still registered are stamped with the
deadline, and they are the ones that are left. -/
structure Checked (s : ContextTimers) (pending : List ℕ) (t : ContextTimers) : Prop where
  defined : (eraseTimers pending (stampTimers s.deadline 0 s.mTimers [] pending).2).isSome
  worker_eq : t.worker =
    .invoking [] (pending.filter fun timer => timer ∈ s.mTimers.map Prod.snd)
  mTimers_eq : t.mTimers =
    s.mTimers.map fun p => if p.2 ∈ pending then (s.deadline, p.2) else p

section Loops

variable {deadline : ℚ} {mTimers : List (ℚ × ℕ)}

theorem swapStamp_eq (deadline : ℚ) (timer : ℕ) (h : (mTimers.map Prod.snd).Nodup) :
    swapStamp deadline timer mTimers =
      if timer ∈ mTimers.map Prod.snd then
        some (mTimers.map fun p => if p.2 = timer then (deadline, p.2) else p)
      else none := by
  induction mTimers with
  | nil => rfl
  | cons p mTimers ih =>
    obtain ⟨hnot, hnodup⟩ := List.nodup_cons.mp h
    rw [swapStamp]
    by_cases heq : timer = p.2
    · -- the timers behind it are others
      have hrest : (mTimers.map fun q => if q.2 = timer then (deadline, q.2) else q) = mTimers :=
        (List.map_congr_left fun q hq => if_neg fun hqt =>
          hnot (List.mem_map.mpr ⟨q, hq, hqt.trans heq⟩)).trans (List.map_id _)
      rw [if_pos heq, if_pos (heq ▸ List.mem_map_of_mem List.mem_cons_self), List.map_cons,
        if_pos heq.symm, hrest]
    · rw [if_neg heq, ih hnodup, List.map_cons, List.map_cons, if_neg (Ne.symm heq)]
      by_cases hmem : timer ∈ mTimers.map Prod.snd
      · rw [if_pos hmem, if_pos (List.mem_cons_of_mem _ hmem), Option.map_some]
      · rw [if_neg hmem, if_neg fun h => (List.mem_cons.mp h).elim heq hmem,
          Option.map_none]

/-- Stamping changes no timer. -/
theorem map_snd_stamp (deadline : ℚ) (p : ℕ → Prop) [DecidablePred p] (mTimers : List (ℚ × ℕ)) :
    (mTimers.map fun q => if p q.2 then (deadline, q.2) else q).map Prod.snd =
      mTimers.map Prod.snd := by
  rw [List.map_map]
  refine List.map_congr_left fun q _ => ?_
  rw [Function.comp_apply]
  split <;> rfl

/-- **The loop** stamps the pending timers that it finds and collects the positions of the
others. -/
theorem stampTimers_eq (deadline : ℚ) (itX : ℕ) (h : (mTimers.map Prod.snd).Nodup)
    (removedTimers timers : List ℕ) :
    stampTimers deadline itX mTimers removedTimers timers =
      (mTimers.map fun p => if p.2 ∈ timers then (deadline, p.2) else p,
        removedTimers ++
          timers.findIdxs (fun t => !decide (t ∈ mTimers.map Prod.snd)) itX) := by
  induction timers generalizing itX mTimers removedTimers with
  | nil => simp [stampTimers]
  | cons timer timers ih =>
    rw [stampTimers, swapStamp_eq deadline timer h, List.findIdxs_cons]
    by_cases hmem : timer ∈ mTimers.map Prod.snd
    · have hsnd := map_snd_stamp deadline (· = timer) mTimers
      rw [if_pos hmem, if_neg (by simpa using hmem)]
      dsimp only
      rw [ih (itX + 1) (hsnd.symm ▸ h), hsnd, List.map_map]
      refine Prod.ext (List.map_congr_left fun q _ => ?_) rfl
      simp only [Function.comp_apply, List.mem_cons]
      by_cases hq : q.2 = timer
      · simp only [hq, if_true, true_or, ite_self]
      · rw [if_neg hq]
        simp only [hq, false_or]
    · rw [if_neg hmem, if_pos (by simpa using hmem)]
      dsimp only
      rw [ih (itX + 1) h, List.append_assoc]
      refine Prod.ext (List.map_congr_left fun q hq => ?_) rfl
      have hne : q.2 ≠ timer := fun heq => hmem (heq ▸ List.mem_map_of_mem hq)
      simp only [List.mem_cons, hne, false_or]

end Loops

/-! ### The check -/

section Check

variable {s t : ContextTimers} {pending remaining : List ℕ}

/-- The loops do what the step of the worker does. -/
theorem checkPending_eq (h : (s.mTimers.map Prod.snd).Nodup) (pending remaining : List ℕ) :
    s.checkPending pending remaining = s.checkTimers pending remaining := by
  rw [checkPending, stampTimers_eq s.deadline 0 h, List.nil_append]
  rfl

/-- One erasure is defined. -/
theorem isSome_eraseTimers {p : ℕ → Bool} {timers : List ℕ} (h : timers.countP p ≤ 1) :
    (eraseTimers timers (timers.findIdxs p)).isSome := by
  rcases Nat.eq_zero_or_pos (timers.countP p) with hzero | hpos
  · rw [List.findIdxs_eq_nil_iff.mpr fun a ha =>
      Bool.eq_false_iff.mpr (List.countP_eq_zero.mp hzero a ha)]
    rfl
  · obtain ⟨front, x, back, rfl, -, hx, hidxs⟩ := exists_findIdxs_eq_cons hpos 0
    rw [List.countP_append, List.countP_cons_of_pos hx] at h
    have hback : back.countP p = 0 := by omega
    have hlt : 0 + front.length < (front ++ x :: back).length := by
      rw [List.length_append, List.length_cons]
      omega
    rw [hidxs, List.findIdxs_eq_nil_iff.mpr fun a ha =>
      Bool.eq_false_iff.mpr (List.countP_eq_zero.mp hback a ha), eraseTimers, List.foldlM_cons,
      if_pos hlt]
    rfl

theorem checked_checkTimers_iff (h : (s.mTimers.map Prod.snd).Nodup)
    (pending remaining : List ℕ) :
    s.Checked pending (s.checkTimers pending remaining) ↔
      pending.countP (fun timer => timer ∉ s.mTimers.map Prod.snd) ≤ 1 := by
  have hiff := foldl_eraseIdx_findIdxs_iff
    (fun t => !decide (t ∈ s.mTimers.map Prod.snd)) pending
  simp only [Bool.not_not] at hiff
  have hloop : (stampTimers s.deadline 0 s.mTimers [] pending).2 =
      pending.findIdxs fun t => !decide (t ∈ s.mTimers.map Prod.snd) := by
    rw [stampTimers_eq s.deadline 0 h, List.nil_append]
  constructor
  · rintro ⟨hdefined, hworker, -⟩
    rw [hloop] at hdefined
    obtain ⟨timers, htimers⟩ := Option.isSome_iff_exists.mp hdefined
    have hleft := (TimerWorker.invoking.inj hworker).2
    rw [htimers, Option.getD_some, eraseTimers_eq_some htimers] at hleft
    simpa using hiff.mp hleft
  · intro hcount
    have hdefined : (eraseTimers pending
        (pending.findIdxs fun t => !decide (t ∈ s.mTimers.map Prod.snd))).isSome :=
      isSome_eraseTimers (by simpa using hcount)
    refine ⟨hloop ▸ hdefined, congrArg (TimerWorker.invoking []) ?_, rfl⟩
    obtain ⟨timers, htimers⟩ := Option.isSome_iff_exists.mp hdefined
    rw [htimers, Option.getD_some, eraseTimers_eq_some htimers]
    exact hiff.mpr (by simpa using hcount)

/-- No timer is registered twice, and new timers are new. -/
structure Distinct (s : ContextTimers) : Prop where
  nodup : (s.mTimers.map Prod.snd).Nodup
  lt : ∀ timer ∈ s.mTimers.map Prod.snd, timer < s.timersMade

theorem Distinct.sublist (h : s.Distinct) {mTimers : List (ℚ × ℕ)}
    (hsub : mTimers.Sublist s.mTimers) (hmTimers : t.mTimers = mTimers)
    (hmade : t.timersMade = s.timersMade) : t.Distinct where
  nodup := hmTimers ▸ h.nodup.sublist (hsub.map Prod.snd)
  lt timer htimer := hmade ▸ h.lt timer ((hsub.map Prod.snd).subset (hmTimers ▸ htimer))

theorem Distinct.newTimer (h : s.Distinct) (interval : ℚ) : (s.newTimer interval).Distinct := by
  have hsnd : (s.newTimer interval).mTimers.map Prod.snd =
      s.mTimers.map Prod.snd ++ [s.timersMade] := List.map_append
  refine ⟨?_, fun timer htimer => ?_⟩
  · rw [hsnd, List.nodup_append]
    refine ⟨h.nodup, List.nodup_singleton _, fun a ha b hb => ?_⟩
    rw [List.mem_singleton.mp hb]
    exact (h.lt a ha).ne
  · rw [hsnd, List.mem_append, List.mem_singleton] at htimer
    rcases htimer with hold | rfl
    · exact (h.lt timer hold).trans (Nat.lt_succ_self _)
    · exact Nat.lt_succ_self _

theorem Distinct.addTimer (h : s.Distinct) (interval : ℚ) (invocationCount : ℕ) :
    (s.addTimer interval invocationCount).Distinct := by
  rw [ContextTimers.addTimer]
  split
  · exact (h.newTimer interval).sublist (List.Sublist.refl _) rfl rfl
  · split_ifs
    · refine Distinct.sublist (Distinct.newTimer ?_ interval) (List.Sublist.refl _) rfl rfl
      exact h.sublist List.eraseP_sublist rfl rfl
    · exact h.sublist (List.Sublist.refl _) rfl rfl

theorem Distinct.step (h : s.Distinct) {a : TimerStep} (ht : s.step a = some t) :
    t.Distinct := by
  have hself : s.mTimers.Sublist s.mTimers := List.Sublist.refl _
  cases a with
  | tick | wake | invokeTimer | invokeClient | endIteration =>
    -- the timers of the context are the same
    simp only [ContextTimers.step] at ht
    split at ht
    · exact Option.some.inj ht ▸ h.sublist hself rfl rfl
    · cases ht
  | register interval invocationCount =>
    exact Option.some.inj ht ▸ h.addTimer interval invocationCount
  | unregister id => exact Option.some.inj ht ▸ h.sublist List.filter_sublist rfl rfl
  | iterate =>
    simp only [ContextTimers.step] at ht
    split at ht
    · exact Option.some.inj ht ▸ h.sublist List.filter_sublist rfl rfl
    · cases ht
  | expire remaining =>
    simp only [ContextTimers.step] at ht
    split at ht
    · split at ht
      · obtain rfl := Option.some.inj ht
        exact ⟨map_snd_checkTimers.symm ▸ h.nodup,
          fun timer htimer => h.lt timer (map_snd_checkTimers ▸ htimer)⟩
      · cases ht
    · cases ht

/-- **The check.** Timers are registered and unregistered in any order, before and after the
worker has chosen the pending ones. When it checks them, no erasure is undefined and the ones that
are still registered are stamped and left, if and only if at most one is not. -/
theorem checked_iff {clock deadline : ℚ} {nextId : ℕ} {l : List TimerStep}
    (hr : run ContextTimers.step (init clock deadline nextId) l = some s)
    (hworker : s.worker = .waiting pending) (ht : s.step (.expire remaining) = some t) :
    t = s.checkPending pending remaining ∧
      (s.Checked pending t ↔
        pending.countP (fun timer => timer ∉ s.mTimers.map Prod.snd) ≤ 1) := by
  have hdistinct : s.Distinct := run_invariant hr (fun _ _ _ h hstep => h.step hstep)
    ⟨List.nodup_nil, fun _ h => absurd h List.not_mem_nil⟩
  have heq : t = s.checkTimers pending remaining := by
    simp only [ContextTimers.step, hworker] at ht
    split at ht
    · exact (Option.some.inj ht).symm
    · cases ht
  rw [heq, checkPending_eq hdistinct.nodup]
  exact ⟨rfl, checked_checkTimers_iff hdistinct.nodup pending remaining⟩

/-- Three timers for the same deadline, some of which are unregistered during the wait. -/
def threeTimers (ids : List ℕ) : List TimerStep :=
  [.register 10 1, .register 10 1, .register 10 1, .iterate] ++ ids.map .unregister ++
    [.tick 10000000]

/-- What a run leads to: where the worker is, what is registered, and where a check leads. -/
def outcome (l : List TimerStep) : Option (TimerWorker × List ℕ × Option TimerWorker) :=
  (run step (init 0 0 0) l).map fun s =>
    (s.worker, s.mTimers.map Prod.snd, (s.step (.expire [])).map ContextTimers.worker)

theorem outcome_spec {l : List TimerStep} {worker worker' : TimerWorker} {registered : List ℕ}
    (h : outcome l = some (worker, registered, some worker')) :
    ∃ s t, run step (init 0 0 0) l = some s ∧ s.worker = worker ∧
      s.mTimers.map Prod.snd = registered ∧ s.step (.expire []) = some t ∧ t.worker = worker' := by
  obtain ⟨s, hs, heq⟩ := Option.map_eq_some_iff.mp h
  obtain ⟨hworker, heq⟩ := Prod.mk.inj heq
  obtain ⟨hregistered, heq⟩ := Prod.mk.inj heq
  obtain ⟨t, ht, hworker'⟩ := Option.map_eq_some_iff.mp heq
  exact ⟨s, t, hs, hworker, hregistered, ht, hworker'⟩

/-- One of three timers is unregistered, and the others are left. -/
theorem checked_iff_threeTimers : ∃ s t, run step (init 0 0 0) (threeTimers [1]) = some s ∧
    s.worker = .waiting [0, 1, 2] ∧ s.step (.expire []) = some t ∧
    t.worker = .invoking [] [0, 2] ∧ s.Checked [0, 1, 2] t := by
  have hrun : outcome (threeTimers [1]) =
      some (.waiting [0, 1, 2], [0, 2], some (.invoking [] [0, 2])) := by
    decide +kernel
  obtain ⟨s, t, hs, hworker, hregistered, ht, hworker'⟩ := outcome_spec hrun
  refine ⟨s, t, hs, hworker, ht, hworker', (checked_iff hs hworker ht).2.mpr ?_⟩
  rw [hregistered]
  decide

/-- The first two of three timers are unregistered. The second one is left, and the third is
not. -/
theorem not_checked_threeTimers : ¬ ∀ (clock deadline : ℚ) (nextId : ℕ) (l : List TimerStep)
    (s t : ContextTimers) (pending remaining : List ℕ),
    run step (init clock deadline nextId) l = some s → s.worker = .waiting pending →
      s.step (.expire remaining) = some t → s.Checked pending t := by
  intro h
  have hrun : outcome (threeTimers [0, 1]) =
      some (.waiting [0, 1, 2], [2], some (.invoking [] [1])) := by
    decide +kernel
  obtain ⟨s, t, hs, hworker, hregistered, ht, hworker'⟩ := outcome_spec hrun
  have hchecked := (h 0 0 0 (threeTimers [0, 1]) s t [0, 1, 2] [] hs hworker ht).worker_eq
  rw [hworker', hregistered] at hchecked
  exact absurd (TimerWorker.invoking.inj hchecked).2 (by decide)

end Check

end ContextTimers

end UtilityFramework
