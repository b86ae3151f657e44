import Mathlib.Data.List.Basic

/-!
# Guarded runs of a step function

A component is a state type `σ`, an action type `α` and a partial step function
`step : σ → α → Option σ`; `step s a = none` says that `a` is not enabled in `s`. An
interleaving of several parties is a list of actions, each naming the party that moves,
so quantifying over lists of actions quantifies over all schedules.

* `run step s l` is the state after the actions `l`, when each is enabled in turn.
* `Guarded step ok s l` says that each action of `l` meets the condition `ok` in the
  state in which it is taken.
* `Always step P s l` says that `P` holds in every state the run visits.
* `run_invariant` is the invariant rule: what holds at the start and is kept by every step
  holds after every run. `Guarded.always` is the rule for steps that meet a condition, and
  `always_iff_guarded` the rule for a condition that is exact: it holds in precisely those
  steps that keep `P`.
-/

namespace UtilityFramework

namespace Transition

universe u v

variable {σ : Type u} {α : Type v}

variable {step : σ → α → Option σ} {ok : σ → α → Prop} {P J : σ → Prop}

/-- The state reached from `s` by the actions `l`, if every action is enabled when it is
taken. -/
def run (step : σ → α → Option σ) : σ → List α → Option σ
  | s, [] => some s
  | s, a :: l => (step s a).bind fun t => run step t l

/-- Every action of `l` meets `ok` in the state in which it is taken. -/
def Guarded (step : σ → α → Option σ) (ok : σ → α → Prop) : σ → List α → Prop
  | _, [] => True
  | s, a :: l => ∀ t, step s a = some t → ok s a ∧ Guarded step ok t l

instance Guarded.decidable [∀ s a, Decidable (ok s a)] :
    ∀ s l, Decidable (Guarded step ok s l)
  | _, [] => .isTrue trivial
  | s, a :: l =>
    match h : step s a with
    | none => .isTrue fun t ht => absurd (h.symm.trans ht) (Option.some_ne_none t).symm
    | some t =>
      have := Guarded.decidable t l
      decidable_of_iff (ok s a ∧ Guarded step ok t l)
        ⟨fun hg _ hu => Option.some.inj (h.symm.trans hu) ▸ hg, fun hg => hg t h⟩

/-- `P` holds in every state reached by a prefix of `l`. -/
def Always (step : σ → α → Option σ) (P : σ → Prop) (s : σ) (l : List α) : Prop :=
  ∀ l' t, l' <+: l → run step s l' = some t → P t

@[simp] theorem run_nil (s : σ) : run step s [] = some s := rfl

theorem run_cons_eq_some {s t : σ} {a : α} {l : List α} :
    run step s (a :: l) = some t ↔ ∃ u, step s a = some u ∧ run step u l = some t :=
  Option.bind_eq_some_iff

/-- One run after another. -/
theorem run_append {s t u : σ} {l l' : List α} (h : run step s l = some t)
    (h' : run step t l' = some u) : run step s (l ++ l') = some u := by
  induction l generalizing s with
  | nil =>
    rw [run_nil, Option.some.injEq] at h
    exact h ▸ h'
  | cons a l ih =>
    obtain ⟨v, hv, hr⟩ := run_cons_eq_some.mp h
    exact run_cons_eq_some.mpr ⟨v, hv, ih hr⟩

theorem Always.head {s : σ} {l : List α} (h : Always step P s l) : P s :=
  h [] s List.nil_prefix rfl

theorem always_nil {s : σ} : Always step P s [] ↔ P s := by
  constructor
  · exact Always.head
  · intro h l' t hl' ht
    rw [List.prefix_nil] at hl'
    subst hl'
    rw [run_nil, Option.some.injEq] at ht
    exact ht ▸ h

theorem always_cons {s : σ} {a : α} {l : List α} :
    Always step P s (a :: l) ↔ P s ∧ ∀ t, step s a = some t → Always step P t l := by
  constructor
  · intro h
    refine ⟨h.head, fun t ht l' u hl' hu => ?_⟩
    exact h (a :: l') u ((List.prefix_cons_inj a).mpr hl')
      (run_cons_eq_some.mpr ⟨t, ht, hu⟩)
  · rintro ⟨hs, h⟩ l' u hl' hu
    cases l' with
    | nil =>
      rw [run_nil, Option.some.injEq] at hu
      exact hu ▸ hs
    | cons b l' =>
      obtain ⟨rfl, htail⟩ := List.cons_prefix_cons.mp hl'
      obtain ⟨t, ht, hu'⟩ := run_cons_eq_some.mp hu
      exact h t ht l' u htail hu'

/-- One action of a guarded run, when it is enabled. -/
theorem Guarded.cons {s t : σ} {a : α} {l : List α} (ht : step s a = some t) (hok : ok s a)
    (hg : Guarded step ok t l) : Guarded step ok s (a :: l) := by
  intro u hu
  rw [ht, Option.some.injEq] at hu
  exact ⟨hok, hu ▸ hg⟩

/-- A run whose actions meet the condition in every state. -/
theorem Guarded.of_forall {l : List α} (h : ∀ a ∈ l, ∀ s, ok s a) (s : σ) :
    Guarded step ok s l := by
  induction l generalizing s with
  | nil => trivial
  | cons a l ih =>
    intro t _
    exact ⟨h a List.mem_cons_self s, ih (fun b hb => h b (List.mem_cons_of_mem a hb)) t⟩

/-- A guarded run whose actions meet a second condition in every state. -/
theorem Guarded.and {ok' : σ → α → Prop} {s : σ} {l : List α} (hg : Guarded step ok s l)
    (h : ∀ a ∈ l, ∀ s, ok' s a) : Guarded step (fun s a => ok s a ∧ ok' s a) s l := by
  induction l generalizing s with
  | nil => trivial
  | cons a l ih =>
    intro t ht
    obtain ⟨hok, hg'⟩ := hg t ht
    exact ⟨⟨hok, h a List.mem_cons_self s⟩, ih hg' fun b hb => h b (List.mem_cons_of_mem a hb)⟩

/-- The invariant rule. -/
theorem run_invariant {s t : σ} {l : List α} (hr : run step s l = some t)
    (hstep : ∀ s a t, J s → step s a = some t → J t) (hs : J s) : J t := by
  induction l generalizing s with
  | nil => rw [run_nil, Option.some.injEq] at hr; exact hr ▸ hs
  | cons a l ih =>
    obtain ⟨u, hu, hr'⟩ := run_cons_eq_some.mp hr
    exact ih hr' (hstep s a u hs hu)

/-- **The invariant rule for guarded runs.** What holds at the start and is kept by every
step that meets the condition holds in every state a guarded run visits. -/
theorem Guarded.always {s : σ} {l : List α} (hg : Guarded step ok s l)
    (hstep : ∀ s a t, J s → ok s a → step s a = some t → J t) (hs : J s) :
    Always step J s l := by
  induction l generalizing s with
  | nil => exact always_nil.mpr hs
  | cons a l ih =>
    refine always_cons.mpr ⟨hs, fun t ht => ?_⟩
    obtain ⟨hok, hg'⟩ := hg t ht
    exact ih hg' (hstep s a t hs hok ht)

/-- A guarded run is a run, if an invariant enables every action. -/
theorem Guarded.exists_run {s : σ} {l : List α} (hg : Guarded step ok s l)
    (henabled : ∀ s a, J s → ∃ t, step s a = some t)
    (hstep : ∀ s a t, J s → ok s a → step s a = some t → J t) (hs : J s) :
    ∃ t, run step s l = some t := by
  induction l generalizing s with
  | nil => exact ⟨s, rfl⟩
  | cons a l ih =>
    obtain ⟨u, hu⟩ := henabled s a hs
    obtain ⟨hok, hg'⟩ := hg u hu
    obtain ⟨t, ht⟩ := ih hg' (hstep s a u hs hok hu)
    exact ⟨t, run_cons_eq_some.mpr ⟨u, hu, ht⟩⟩

/-- A guarded run meets every condition that the first one gives under an invariant. -/
theorem Guarded.imp {ok' : σ → α → Prop} {s : σ} {l : List α} (hg : Guarded step ok s l)
    (hJ : ∀ s a t, J s → ok s a → step s a = some t → J t)
    (hok : ∀ s a, J s → ok s a → ok' s a) (hs : J s) : Guarded step ok' s l := by
  induction l generalizing s with
  | nil => trivial
  | cons a l ih =>
    intro t ht
    obtain ⟨h, hg'⟩ := hg t ht
    exact ⟨hok s a hs h, ih hg' (hJ s a t hs h ht)⟩

/-- **Exact conditions.** If, whenever `P` holds, a step keeps `P` precisely when it meets
the condition, then `P` holds throughout a run precisely when the run is guarded. `J` is
what steps that meet the condition keep besides. -/
theorem always_iff_guarded_of_ok {s : σ} (l : List α)
    (hJ : ∀ s a t, J s → P s → ok s a → step s a = some t → J t)
    (hstep : ∀ s a t, J s → P s → step s a = some t → (P t ↔ ok s a))
    (hs : J s) (hP : P s) : Always step P s l ↔ Guarded step ok s l := by
  induction l generalizing s with
  | nil => exact iff_of_true (always_nil.mpr hP) trivial
  | cons a l ih =>
    rw [always_cons]
    constructor
    · rintro ⟨-, h⟩ t ht
      have hPt : P t := (h t ht).head
      have hok := (hstep s a t hs hP ht).mp hPt
      exact ⟨hok, (ih (hJ s a t hs hP hok ht) hPt).mp (h t ht)⟩
    · intro h
      refine ⟨hP, fun t ht => ?_⟩
      obtain ⟨hok, hg⟩ := h t ht
      exact (ih (hJ s a t hs hP hok ht) ((hstep s a t hs hP ht).mpr hok)).mpr hg

/-- The case in which `J` is kept by every step. -/
theorem always_iff_guarded {s : σ} (l : List α)
    (hJ : ∀ s a t, J s → step s a = some t → J t)
    (hstep : ∀ s a t, J s → P s → step s a = some t → (P t ↔ ok s a))
    (hs : J s) (hP : P s) : Always step P s l ↔ Guarded step ok s l :=
  always_iff_guarded_of_ok l (fun s a t hs _ _ ht => hJ s a t hs ht) hstep hs hP

/-! ### Histories -/

/-- An observer that ignores every event of a history learns nothing from it. -/
theorem foldl_eq_self {ρ : Type u} {ε : Type v} {observe : ρ → ε → ρ} {history : List ε}
    (h : ∀ e ∈ history, ∀ r, observe r e = r) (r : ρ) : history.foldl observe r = r := by
  induction history with
  | nil => rfl
  | cons e history ih =>
    rw [List.foldl_cons, h e List.mem_cons_self]
    exact ih fun e' he' => h e' (List.mem_cons_of_mem e he')

end Transition

end UtilityFramework
