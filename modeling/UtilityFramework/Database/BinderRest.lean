import Mathlib.Algebra.BigOperators.Group.Finset.Basic
import Mathlib.Algebra.Order.BigOperators.Group.List
import UtilityFramework.Database.DataBinder

/-!
# The binder at rest

A write that the worker does for a binding may be reported to further bindings. Where bindings
do not lead back, each step of the binder's own lowers what it has before it (`load_lt`): it
comes to rest when the clients do, and then all rows that agreed when they were bound read alike
(`rest_of_run`). Where bindings that force their reports lead in a circle, what is on its way goes
round for ever (`not_rest_of_run`). `bind` forces reports by default.
-/

namespace UtilityFramework

open Transition

variable {ρ : Type*} [DecidableEq ρ]

namespace DataBinder

variable {fresh : ℕ → ℕ → UInt8} {s t : DataBinder ρ} {row : ρ} {call : WriteCall}
  {a : BinderStep ρ} {b : Binding ρ}

/-! ### At rest -/

/-- The binder can do nothing until a client calls it. -/
def Rest (fresh : ℕ → ℕ → UInt8) (s : DataBinder ρ) : Prop :=
  ∀ a : BinderStep ρ, a.Own → s.step fresh a = none

/-- A writer that is not idle can go on. -/
theorem exists_own_of_writer (h : s.writers row ≠ .idle) :
    ∃ a : BinderStep ρ, a.Own ∧ s.step fresh a ≠ none := by
  cases hw : s.writers row with
  | idle => exact absurd hw h
  | stored payload =>
    refine ⟨.raise row, trivial, ?_⟩
    rw [step, hw]
    exact Option.some_ne_none _
  | raising payload functions =>
    cases functions with
    | nil =>
      refine ⟨.finish row, trivial, ?_⟩
      rw [step, hw]
      exact Option.some_ne_none _
    | cons b functions =>
      refine ⟨.enqueue row, trivial, ?_⟩
      rw [step, hw]
      exact Option.some_ne_none _

/-- A binder at rest has nothing on its way. -/
theorem Rest.underway_eq_nil (h : s.Rest fresh) (hs : s.Inv) (b : Binding ρ) :
    s.underway b = [] := by
  have hidle : ∀ row, s.writers row = .idle := by
    intro row
    by_contra hne
    obtain ⟨a, ha, hstep⟩ := @exists_own_of_writer ρ _ fresh s row hne
    exact hstep (h a ha)
  have hworker : s.worker = none := by
    cases hw : s.worker with
    | none => rfl
    | some row => exact absurd (hidle row) (hs.worker row hw)
  have hqueue : s.queue = [] := by
    cases hq : s.queue with
    | nil => rfl
    | cons e queue =>
      have hwork := h .work trivial
      rw [step, hworker, hq] at hwork
      dsimp only at hwork
      rw [if_pos (hidle e.1.target)] at hwork
      cases hwork
  rw [underway, hqueue, hidle]
  rfl

/-- The steps that enqueuing for these bindings takes and sets off, if a write of a row sets off
`weight` many. -/
def spread (weight : ρ → ℕ) (functions : List (Binding ρ)) : ℕ :=
  (functions.map fun b => weight b.target + 2).sum

/-- How many steps a write of a row can set off, where bindings are followed `depth` times. -/
def cascade (bindings : List (Binding ρ)) : ℕ → ρ → ℕ
  | 0, _ => 2
  | depth + 1, row =>
    2 + spread (cascade bindings depth) (bindings.filter fun b => b.source = row)

theorem cascade_mono (bindings : List (Binding ρ)) {m n : ℕ} (h : m ≤ n) (row : ρ) :
    cascade bindings m row ≤ cascade bindings n row := by
  induction m generalizing n row with
  | zero =>
    cases n with
    | zero => exact Nat.le_refl _
    | succ n => exact Nat.le_add_right _ _
  | succ m ih =>
    cases n with
    | zero => exact absurd h (Nat.not_succ_le_zero m)
    | succ n =>
      refine Nat.add_le_add_left (List.sum_le_sum fun b _ => ?_) 2
      exact Nat.add_le_add_right (ih (Nat.le_of_succ_le_succ h) b.target) 2

/-- Where bindings lead down, a write sets off no more than its own reports do. -/
theorem spread_cascade_le {bindings : List (Binding ρ)} {rank : ρ → ℕ}
    (hrank : ∀ b ∈ bindings, rank b.target < rank b.source) (row : ρ) :
    2 + spread (fun target => cascade bindings (rank target) target)
      (bindings.filter fun b => b.source = row) ≤ cascade bindings (rank row) row := by
  cases hr : rank row with
  | zero =>
    have hnil : (bindings.filter fun b => b.source = row) = [] := by
      rw [List.filter_eq_nil_iff]
      intro b hb heq
      rw [decide_eq_true_iff] at heq
      have hlt := hrank b hb
      rw [heq, hr] at hlt
      exact absurd hlt (Nat.not_lt_zero _)
    rw [hnil]
    exact Nat.le_refl _
  | succ r =>
    refine Nat.add_le_add_left (List.sum_le_sum fun b hb => ?_) 2
    rw [List.mem_filter, decide_eq_true_iff] at hb
    have hlt := hrank b hb.1
    rw [hb.2, hr] at hlt
    exact Nat.add_le_add_right (cascade_mono bindings (Nat.le_of_lt_succ hlt) _) 2

/-- What a writer has before it. -/
def RowWriter.cost (weight : ρ → ℕ) (bindings : List (Binding ρ)) (row : ρ) :
    RowWriter ρ → ℕ
  | .idle => 0
  | .stored _ => 2 + spread weight (bindings.filter fun b => b.source = row)
  | .raising _ functions => 1 + spread weight functions

/-- What the binder has before it, if only these rows are written. -/
def load (weight : ρ → ℕ) (rows : Finset ρ) (s : DataBinder ρ) : ℕ :=
  (s.queue.map fun e => weight e.1.target + 1).sum +
    ∑ row ∈ rows, RowWriter.cost weight s.bindings row (s.writers row)

/-- All that is or will be written is among these rows. -/
structure Within (rows : Finset ρ) (s : DataBinder ρ) : Prop where
  writers : ∀ row, row ∉ rows → s.writers row = .idle
  targets : ∀ b ∈ s.bindings, b.target ∈ rows

section Load

variable {weight : ρ → ℕ} {rows : Finset ρ}

theorem sum_cost_update (weight : ρ → ℕ) (bindings : List (Binding ρ)) (hrow : row ∈ rows)
    (writers : ρ → RowWriter ρ) (writer : RowWriter ρ) :
    ∑ other ∈ rows, RowWriter.cost weight bindings other
        (Function.update writers row writer other) +
      RowWriter.cost weight bindings row (writers row) =
    ∑ other ∈ rows, RowWriter.cost weight bindings other (writers other) +
      RowWriter.cost weight bindings row writer := by
  have hrest : ∑ other ∈ rows.erase row, RowWriter.cost weight bindings other
        (Function.update writers row writer other) =
      ∑ other ∈ rows.erase row, RowWriter.cost weight bindings other (writers other) := by
    refine Finset.sum_congr rfl fun other hother => ?_
    rw [Function.update_of_ne (Finset.ne_of_mem_erase hother)]
  rw [← Finset.add_sum_erase rows _ hrow, ← Finset.add_sum_erase rows (fun other =>
    RowWriter.cost weight bindings other (writers other)) hrow, hrest, Function.update_self]
  omega

omit [DecidableEq ρ] in
theorem Within.mem (h : s.Within rows) (hne : s.writers row ≠ .idle) : row ∈ rows := by
  by_contra hrow
  exact hne (h.writers row hrow)

theorem Within.update (h : s.Within rows) (hrow : row ∈ rows) {writer : RowWriter ρ}
    (hbindings : t.bindings = s.bindings)
    (hwriters : t.writers = Function.update s.writers row writer) : t.Within rows := by
  refine ⟨fun other hother => ?_, hbindings ▸ h.targets⟩
  rw [hwriters, Function.update_of_ne fun ho : other = row => hother (ho ▸ hrow)]
  exact h.writers other hother

theorem load_raise_lt (h : s.Within rows) (ht : s.step fresh (.raise row) = some t) :
    t.Within rows ∧ load weight rows t < load weight rows s := by
  obtain ⟨payload, hw, rfl⟩ := raise_eq_some ht
  have hrow : row ∈ rows := h.mem (hw.trans_ne (RowWriter.stored_ne_idle _))
  have hsum := sum_cost_update weight s.bindings hrow s.writers
    (.raising payload (s.bindings.filter fun b => b.source = row))
  rw [hw, RowWriter.cost, RowWriter.cost] at hsum
  refine ⟨h.update hrow rfl rfl, ?_⟩
  rw [load, load]
  dsimp only [setWriter]
  omega

theorem load_enqueue_lt (h : s.Within rows) (ht : s.step fresh (.enqueue row) = some t) :
    t.Within rows ∧ load weight rows t < load weight rows s := by
  obtain ⟨payload, b, functions, hw, rfl⟩ := enqueue_eq_some ht
  have hrow : row ∈ rows := h.mem (hw.trans_ne (RowWriter.raising_ne_idle _ _))
  have hsum := sum_cost_update weight s.bindings hrow s.writers (.raising payload functions)
  rw [hw, RowWriter.cost, RowWriter.cost, spread, spread, List.map_cons, List.sum_cons] at hsum
  refine ⟨h.update hrow rfl rfl, ?_⟩
  rw [load, load]
  dsimp only [setWriter]
  rw [List.map_append, List.sum_append, List.map_singleton, List.sum_singleton]
  dsimp only
  omega

theorem load_finish_lt (h : s.Within rows) (ht : s.step fresh (.finish row) = some t) :
    t.Within rows ∧ load weight rows t < load weight rows s := by
  obtain ⟨payload, hw, rfl⟩ := finish_eq_some ht
  have hrow : row ∈ rows := h.mem (hw.trans_ne (RowWriter.raising_ne_idle _ _))
  have hsum := sum_cost_update weight s.bindings hrow s.writers .idle
  rw [hw, RowWriter.cost, RowWriter.cost] at hsum
  refine ⟨h.update hrow rfl rfl, ?_⟩
  rw [load, load]
  dsimp only [setWriter]
  omega

/-- The write of the worker sets off no more than the weight of the row it writes. -/
theorem load_work_lt (hs : s.Inv) (h : s.Within rows)
    (hweight : ∀ row, 2 + spread weight (s.bindings.filter fun b => b.source = row) ≤ weight row)
    (ht : s.step fresh .work = some t) :
    t.Within rows ∧ load weight rows t < load weight rows s := by
  obtain ⟨b, payload, queue, -, hqueue, hidle, rfl⟩ := work_eq_some ht
  have hrow : b.target ∈ rows :=
    h.targets b (hs.queued (b, payload) (hqueue ▸ List.mem_cons_self)).1
  have hsum := sum_cost_update weight s.bindings hrow s.writers
    (.ofRaised ((s.rows b.target).writeBytes fresh (bindingCall payload b.forceReport)).raised)
  have hcost : RowWriter.cost weight s.bindings b.target (.ofRaised
      ((s.rows b.target).writeBytes fresh (bindingCall payload b.forceReport)).raised) ≤
      weight b.target := by
    cases ((s.rows b.target).writeBytes fresh (bindingCall payload b.forceReport)).raised with
    | none => exact Nat.zero_le _
    | some n => exact hweight b.target
  rw [hidle, RowWriter.cost] at hsum
  refine ⟨h.update hrow rfl rfl, ?_⟩
  rw [load, load, hqueue, List.map_cons, List.sum_cons]
  dsimp only [DataBinder.store]
  omega

/-- **Each step of the binder's own lowers what it has before it.** -/
theorem load_lt (hs : s.Inv) (h : s.Within rows)
    (hweight : ∀ row, 2 + spread weight (s.bindings.filter fun b => b.source = row) ≤ weight row)
    (ha : a.Own) (ht : s.step fresh a = some t) :
    t.Within rows ∧ load weight rows t < load weight rows s := by
  cases a with
  | raise row => exact load_raise_lt h ht
  | enqueue row => exact load_enqueue_lt h ht
  | finish row => exact load_finish_lt h ht
  | work => exact load_work_lt hs h hweight ht
  | write | setWritePriority | copyInitValue | bind => exact absurd ha id

/-- A run of the binder's own is no longer than what it has before it. -/
theorem length_le_load (hs : s.Inv) (h : s.Within rows)
    (hweight : ∀ row, 2 + spread weight (s.bindings.filter fun b => b.source = row) ≤ weight row)
    {own : List (BinderStep ρ)} (hown : ∀ a ∈ own, a.Own)
    (hrun : run (step fresh) s own = some t) :
    own.length + load weight rows t ≤ load weight rows s := by
  induction own generalizing s with
  | nil =>
    rw [run_nil, Option.some.injEq] at hrun
    rw [hrun, List.length_nil, Nat.zero_add]
  | cons a own ih =>
    obtain ⟨u, hu, hrun'⟩ := run_cons_eq_some.mp hrun
    have ha := hown a List.mem_cons_self
    obtain ⟨hwithin, hlt⟩ := load_lt hs h hweight ha hu
    have hle := ih (hs.step (ok_of_own ha).keepsPriority hu) hwithin
      (bindings_of_own hu ha ▸ hweight)
      (fun b hb => hown b (List.mem_cons_of_mem a hb)) hrun'
    rw [List.length_cons]
    omega

end Load

/-- A step moves one writer at most. -/
theorem exists_writers_eq (ht : s.step fresh a = some t) :
    ∃ row writer, t.writers = Function.update s.writers row writer ∨ t.writers = s.writers := by
  have hstore : ∀ row call, ∃ other writer, (s.store fresh row call).writers =
      Function.update s.writers other writer ∨
        (s.store fresh row call).writers = s.writers :=
    fun row call => ⟨row, _, .inl rfl⟩
  cases a with
  | write row call =>
    obtain ⟨-, rfl⟩ := write_eq_some ht
    exact hstore row call
  | setWritePriority row priority =>
    cases ht
    exact ⟨row, .idle, .inr rfl⟩
  | copyInitValue source target forceReport =>
    obtain ⟨-, ⟨rfl, -⟩ | ⟨-, -, rfl⟩⟩ := copyInitValue_eq_some ht
    · exact ⟨target, .idle, .inr rfl⟩
    · exact hstore _ _
  | bind source target forceReport =>
    obtain ⟨-, rfl⟩ := bind_eq_some ht
    exact ⟨target, .idle, .inr rfl⟩
  | raise row =>
    obtain ⟨-, -, writer, hwriters⟩ := frame_of_writer (.inl rfl) ht
    exact ⟨row, writer, .inl hwriters⟩
  | enqueue row =>
    obtain ⟨-, -, writer, hwriters⟩ := frame_of_writer (.inr (.inl rfl)) ht
    exact ⟨row, writer, .inl hwriters⟩
  | finish row =>
    obtain ⟨-, -, writer, hwriters⟩ := frame_of_writer (.inr (.inr rfl)) ht
    exact ⟨row, writer, .inl hwriters⟩
  | work =>
    obtain ⟨b, payload, queue, -, -, -, rfl⟩ := work_eq_some ht
    exact hstore _ _

/-- Only finitely many rows are ever being written. -/
theorem exists_within {rows : ρ → MemoryRow} {acts : List (BinderStep ρ)}
    (hrun : run (step fresh) (start rows) acts = some s) : ∃ rows, s.Within rows := by
  obtain ⟨busy, hbusy⟩ : ∃ busy : Finset ρ, ∀ row, row ∉ busy → s.writers row = .idle := by
    refine run_invariant (J := fun s : DataBinder ρ => ∃ busy : Finset ρ, ∀ row, row ∉ busy →
      s.writers row = .idle) hrun (fun u a v hu hv => ?_) ⟨∅, fun _ _ => rfl⟩
    obtain ⟨busy, hbusy⟩ := hu
    obtain ⟨row, writer, hwriters | hwriters⟩ := exists_writers_eq hv
    · refine ⟨insert row busy, fun other hother => ?_⟩
      rw [Finset.mem_insert, not_or] at hother
      rw [hwriters, Function.update_of_ne hother.1]
      exact hbusy other hother.2
    · exact ⟨busy, hwriters ▸ hbusy⟩
  refine ⟨busy ∪ (s.bindings.map Binding.target).toFinset, fun row hrow => ?_, fun b hb => ?_⟩
  · exact hbusy row fun hmem => hrow (Finset.mem_union_left _ hmem)
  · exact Finset.mem_union_right _ (List.mem_toFinset.mpr (List.mem_map_of_mem hb))

/-- **Bindings that do not lead back come to rest.** In every run in which clients bind rows that
agree, and leave them to the binder then, and whose bindings can be ranked so that each leads
down, there is a bound on how many steps the binder takes of its own from then on. When it can
take no more, every row reads like the row it is bound to. -/
theorem rest_of_run {rows : ρ → MemoryRow} (hrows : ∀ row, (rows row).Data)
    {acts : List (BinderStep ρ)} (hok : Guarded (step fresh) Ok (start rows) acts)
    (hrun : run (step fresh) (start rows) acts = some s) {rank : ρ → ℕ}
    (hrank : ∀ b ∈ s.bindings, rank b.target < rank b.source) :
    ∃ bound : ℕ, ∀ (own : List (BinderStep ρ)) (t : DataBinder ρ), (∀ a ∈ own, a.Own) →
      run (step fresh) s own = some t → own.length ≤ bound ∧
        (t.Rest fresh → t.bindings = s.bindings ∧ ∀ b ∈ t.bindings, ∀ dst n,
          (t.rows b.target).readBytes dst n = (t.rows b.source).readBytes dst n) := by
  obtain ⟨hs, hsynced⟩ := synced_of_run hrows hok hrun
  obtain ⟨written, hwithin⟩ := exists_within hrun
  refine ⟨load (fun row => cascade s.bindings (rank row) row) written s,
    fun own t hown hown' => ⟨?_, fun hrest => ?_⟩⟩
  · have hle := length_le_load hs hwithin (spread_cascade_le hrank) hown hown'
    omega
  · have hinv : t.Inv ∧ t.Synced ∧ t.bindings = s.bindings := by
      have hguarded : Guarded (step fresh) (fun _ a => BinderStep.Own a) s own :=
        Guarded.of_forall (fun a ha _ => hown a ha) s
      refine hguarded.always (J := fun u : DataBinder ρ => u.Inv ∧ u.Synced ∧
        u.bindings = s.bindings) (fun u a v hu ha hv => ?_) ⟨hs, hsynced, rfl⟩ own t
        (List.prefix_refl own) hown'
      obtain ⟨huinv, husynced, hbindings⟩ := hu
      exact ⟨huinv.step (ok_of_own ha).keepsPriority hv,
        husynced.step huinv (ok_of_own ha) hv, (bindings_of_own hv ha).trans hbindings⟩
    exact ⟨hinv.2.2, fun b hb dst n =>
      hinv.2.1.readBytes_eq hinv.1 hb (hrest.underway_eq_nil hinv.1 b) dst n⟩

/-- A write that two more rows follow. -/
theorem rest_of_run_chain :
    ∃ s : DataBinder ℕ, run (step fun _ _ => 255)
        (start fun _ => MemoryRow.construct 1 true .uint8)
        [.bind 2 1 true, .bind 1 0 true, .write 2 (bindingCall [5] false)] = some s ∧
      ∃ bound : ℕ, ∀ (own : List (BinderStep ℕ)) (t : DataBinder ℕ), (∀ a ∈ own, a.Own) →
        run (step fun _ _ => 255) s own = some t → own.length ≤ bound ∧
          (t.Rest (fun _ _ => 255) → t.bindings = s.bindings ∧ ∀ b ∈ t.bindings, ∀ dst n,
            (t.rows b.target).readBytes dst n = (t.rows b.source).readBytes dst n) := by
  have hrows : ∀ _ : ℕ, (MemoryRow.construct 1 true .uint8).Data := fun _ =>
    @MemoryRow.data_create _ 1 _ rfl (by decide)
  have hbind : ∀ b ∈ ([⟨2, 1, true⟩] : List (Binding ℕ)), b.target ≠ 0 := by decide
  have hwrite : ∀ b ∈ ([⟨2, 1, true⟩, ⟨1, 0, true⟩] : List (Binding ℕ)), b.target ≠ 2 := by
    decide
  have hrank : ∀ b ∈ ([⟨2, 1, true⟩, ⟨1, 0, true⟩] : List (Binding ℕ)),
      id b.target < id b.source := by decide
  refine ⟨_, rfl, @rest_of_run ℕ _ (fun _ _ => 255) _ _ hrows
    [.bind 2 1 true, .bind 1 0 true, .write 2 (bindingCall [5] false)] ?_ rfl id hrank⟩
  exact .cons rfl ⟨by decide, nofun, rfl, rfl, .refl []⟩
    (.cons rfl ⟨by decide, hbind, rfl, rfl, .refl []⟩ (.cons rfl hwrite trivial))

/-! ### Forced reports in a circle -/

/-- A binding lasts. -/
theorem mem_bindings_of_step (ht : s.step fresh a = some t) (hb : b ∈ s.bindings) :
    b ∈ t.bindings := by
  cases a with
  | write row call =>
    obtain ⟨-, rfl⟩ := write_eq_some ht
    exact hb
  | setWritePriority row priority =>
    cases ht
    exact hb
  | copyInitValue source target forceReport =>
    obtain ⟨-, ⟨rfl, -⟩ | ⟨-, -, rfl⟩⟩ := copyInitValue_eq_some ht
    · exact hb
    · exact hb
  | bind source target forceReport =>
    obtain ⟨-, rfl⟩ := bind_eq_some ht
    exact List.mem_append_left _ hb
  | raise | enqueue | finish | work => rwa [bindings_of_own ht trivial]

/-- Something is on its way for one of these bindings. -/
def Circulates (circle : List (Binding ρ)) (s : DataBinder ρ) : Prop :=
  ∃ b ∈ circle, s.underway b ≠ []

theorem Circulates.store {circle : List (Binding ρ)} (h : s.Circulates circle)
    (hidle : s.writers row = .idle) : (s.store fresh row call).Circulates circle := by
  obtain ⟨b, hb, hne⟩ := h
  refine ⟨b, hb, ?_⟩
  have hqueue : (s.store fresh row call).queue = s.queue := rfl
  rw [underway, hqueue, writers_store]
  rw [underway] at hne
  split_ifs with hsource
  · rw [hsource, hidle, RowWriter.pending_idle, List.append_nil] at hne
    exact List.append_ne_nil_of_left_ne_nil hne _
  · exact hne

/-- The worker passes a report on to the next binding of the circle. -/
theorem Circulates.work {circle : List (Binding ρ)} (h : s.Circulates circle) (hs : s.Inv)
    (hcircle : ∀ b ∈ circle, b.forceReport = true ∧ ∃ c ∈ circle, c.source = b.target)
    (ht : s.step fresh .work = some t) : t.Circulates circle := by
  obtain ⟨b, payload, queue, -, hqueue, hidle, rfl⟩ := work_eq_some ht
  by_cases hb : b ∈ circle
  · obtain ⟨hforce, c, hc, hsource⟩ := hcircle b hb
    obtain ⟨hbound, hfits⟩ := hs.queued (b, payload) (hqueue ▸ List.mem_cons_self)
    have hwriter := (hs.stored_store hbound hfits fresh b.forceReport).2 hforce
    refine ⟨c, hc, ?_⟩
    rw [underway]
    dsimp only
    rw [hsource, hwriter, RowWriter.pending_stored]
    exact List.append_ne_nil_of_right_ne_nil _ (List.cons_ne_nil _ _)
  · have hstore : (s.store fresh b.target (bindingCall payload b.forceReport)).Circulates circle :=
      h.store hidle
    obtain ⟨c, hc, hne⟩ := hstore
    have hqueued : (s.store fresh b.target (bindingCall payload b.forceReport)).queue =
        (b, payload) :: queue := hqueue
    rw [underway, hqueued, queuedFor_cons, if_neg fun hbc : b = c => hb (hbc ▸ hc)] at hne
    exact ⟨c, hc, hne⟩

theorem Circulates.step {circle : List (Binding ρ)} (h : s.Circulates circle) (hs : s.Inv)
    (hbound : ∀ b ∈ circle, b ∈ s.bindings)
    (hcircle : ∀ b ∈ circle, b.forceReport = true ∧ ∃ c ∈ circle, c.source = b.target)
    (ht : s.step fresh a = some t) : t.Circulates circle := by
  cases a with
  | write row call =>
    obtain ⟨hidle, rfl⟩ := write_eq_some ht
    exact h.store hidle
  | setWritePriority row priority =>
    cases ht
    exact h
  | copyInitValue source target forceReport =>
    obtain ⟨-, ⟨rfl, -⟩ | ⟨-, hidle, rfl⟩⟩ := copyInitValue_eq_some ht
    · exact h
    · exact h.store hidle
  | bind source target forceReport =>
    obtain ⟨-, rfl⟩ := bind_eq_some ht
    exact h
  | raise row =>
    obtain ⟨b, hb, hne⟩ := h
    exact ⟨b, hb, by rw [underway_raise ht (hbound b hb)]; exact hne⟩
  | enqueue row =>
    obtain ⟨b, hb, hne⟩ := h
    refine ⟨b, hb, fun hnil => hne ?_⟩
    rw [← List.getLast?_eq_none_iff, ← getLast?_underway_enqueue hs ht, hnil, List.getLast?_nil]
  | finish row =>
    obtain ⟨b, hb, hne⟩ := h
    exact ⟨b, hb, by rw [underway_finish ht]; exact hne⟩
  | work => exact h.work hs hcircle ht

/-- **Forced reports in a circle never come to rest.** Whatever clients do that leave bound
rows writable for the worker: once something is on its way for a binding that forces its
reports and leads into others of that kind, there is always something for the binder to do. -/
theorem not_rest_of_run {rows : ρ → MemoryRow} (hrows : ∀ row, (rows row).Data)
    {acts more : List (BinderStep ρ)}
    (hok : Guarded (step fresh) KeepsPriority (start rows) acts)
    (hrun : run (step fresh) (start rows) acts = some s) {circle : List (Binding ρ)}
    (hcircle : ∀ b ∈ circle, b ∈ s.bindings ∧ b.forceReport = true ∧
      ∃ c ∈ circle, c.source = b.target)
    (hbusy : ∃ b ∈ circle, s.underway b ≠ [])
    (hmore : Guarded (step fresh) KeepsPriority s more)
    (hrun' : run (step fresh) s more = some t) : ¬t.Rest fresh := by
  have hinv : t.Inv ∧ (∀ b ∈ circle, b ∈ t.bindings) ∧ t.Circulates circle := by
    refine hmore.always (J := fun u : DataBinder ρ => u.Inv ∧ (∀ b ∈ circle, b ∈ u.bindings) ∧
      u.Circulates circle) (fun u a v hu ha hv => ?_)
      ⟨inv_of_run hrows hok hrun, fun b hb => (hcircle b hb).1, hbusy⟩ more t
      (List.prefix_refl more) hrun'
    obtain ⟨huinv, hbound, hcirculates⟩ := hu
    exact ⟨huinv.step ha hv, fun b hb => mem_bindings_of_step hv (hbound b hb),
      hcirculates.step huinv hbound (fun b hb => (hcircle b hb).2) hv⟩
  intro hrest
  obtain ⟨b, hb, hne⟩ := hinv.2.2
  exact hne (hrest.underway_eq_nil hinv.1 b)

/-- Two rows bound to each other: a byte has gone once round. -/
theorem not_rest_of_run_pair :
    ∃ s t : DataBinder ℕ, run (step fun _ _ => 255)
        (start fun _ => MemoryRow.construct 1 true .uint8)
        [.bind 0 1 true, .bind 1 0 true, .write 0 (bindingCall [5] false), .raise 0] = some s ∧
      run (step fun _ _ => 255) s [.enqueue 0, .finish 0, .work, .raise 1, .enqueue 1,
        .finish 1, .work] = some t ∧
      ¬t.Rest fun _ _ => 255 := by
  have hrows : ∀ _ : ℕ, (MemoryRow.construct 1 true .uint8).Data := fun _ =>
    @MemoryRow.data_create _ 1 _ rfl (by decide)
  have hcircle : ∀ b ∈ ([⟨0, 1, true⟩, ⟨1, 0, true⟩] : List (Binding ℕ)),
      b ∈ ([⟨0, 1, true⟩, ⟨1, 0, true⟩] : List (Binding ℕ)) ∧ b.forceReport = true ∧
        ∃ c ∈ ([⟨0, 1, true⟩, ⟨1, 0, true⟩] : List (Binding ℕ)), c.source = b.target := by
    decide
  refine ⟨_, _, rfl, rfl, @not_rest_of_run ℕ _ (fun _ _ => 255) _ _ _ hrows
    [.bind 0 1 true, .bind 1 0 true, .write 0 (bindingCall [5] false), .raise 0]
    [.enqueue 0, .finish 0, .work, .raise 1, .enqueue 1, .finish 1, .work] ?_ rfl
    [⟨0, 1, true⟩, ⟨1, 0, true⟩] ?_ ?_ ?_ rfl⟩
  · exact .cons rfl rfl (.cons rfl rfl (.cons rfl trivial (.cons rfl trivial trivial)))
  · exact hcircle
  · exact ⟨⟨0, 1, true⟩, List.mem_cons_self, by decide⟩
  · exact .cons rfl trivial (.cons rfl trivial (.cons rfl trivial (.cons rfl trivial
      (.cons rfl trivial (.cons rfl trivial (.cons rfl trivial trivial))))))

end DataBinder

end UtilityFramework
