import Mathlib.Order.WellFounded

/-!
# Reading with texts in place

A reader goes through a list letter by letter. At some letters it reads another list first, in
place of the letter and from a state of its own choice, and goes on where that has brought it:
`next q c` is the next state, or the state and the list to be read in place.

`Reads next q v r` says that reading `v` from `q` comes to an end, in the state `r`. The lists
that are read in place on the way, themselves not what is read in place of their letters, are
those that `v` `Calls`. Reading ends precisely if no chain of calls goes on forever
(`exists_reads_iff`).
-/

namespace UtilityFramework

namespace NestedReading

universe u v

variable {σ : Type u} {α : Type v} (next : σ → α → σ ⊕ (σ × List α))

/-- The state in which reading ends. -/
inductive Reads : σ → List α → σ → Prop
  | nil (q : σ) : Reads q [] q
  | letter {q q' r : σ} {c : α} {v : List α} (hnext : next q c = .inl q') (hv : Reads q' v r) :
      Reads q (c :: v) r
  | nested {q q' q'' r : σ} {c : α} {v w : List α} (hnext : next q c = .inr (q', w))
      (hw : Reads q' w q'') (hv : Reads q'' v r) : Reads q (c :: v) r

/-- Reading `b` comes to read `a` in place of one of its letters. -/
def Calls (a b : σ × List α) : Prop :=
  ∃ u c rest m, b.2 = u ++ c :: rest ∧ Reads next b.1 u m ∧ next m c = .inr a

/-- The state that letters lead to in place of none of which a list is read. -/
def plain : σ → List α → Option σ
  | q, [] => some q
  | q, c :: v =>
    match next q c with
    | .inl q' => plain q' v
    | .inr _ => none

variable {next} {q m r : σ} {u v : List α} {c : α}

theorem Reads.append (hu : Reads next q u m) (hv : Reads next m v r) :
    Reads next q (u ++ v) r := by
  induction hu with
  | nil q => exact hv
  | letter hnext _ ih => exact .letter hnext (ih hv)
  | nested hnext hw _ _ ih => exact .nested hnext hw (ih hv)

theorem Reads.split (h : Reads next q (u ++ v) r) :
    ∃ m, Reads next q u m ∧ Reads next m v r := by
  induction u generalizing q with
  | nil => exact ⟨q, .nil q, h⟩
  | cons c u ih =>
    cases h with
    | letter hnext h =>
      obtain ⟨m, hu, hv⟩ := ih h
      exact ⟨m, .letter hnext hu, hv⟩
    | nested hnext hw h =>
      obtain ⟨m, hu, hv⟩ := ih h
      exact ⟨m, .nested hnext hw hu, hv⟩

theorem Reads.deterministic {r' : σ} (h : Reads next q v r) (h' : Reads next q v r') :
    r = r' := by
  induction h generalizing r' with
  | nil q =>
    cases h'
    rfl
  | letter hnext _ ih =>
    cases h' with
    | letter hnext' hv' =>
      obtain rfl := Sum.inl.inj (hnext.symm.trans hnext')
      exact ih hv'
    | nested hnext' _ _ => cases hnext.symm.trans hnext'
  | nested hnext _ _ ihw ihv =>
    cases h' with
    | letter hnext' _ => cases hnext.symm.trans hnext'
    | nested hnext' hw' hv' =>
      obtain ⟨rfl, rfl⟩ := Prod.mk.inj (Sum.inr.inj (hnext.symm.trans hnext'))
      obtain rfl := ihw hw'
      exact ihv hv'

/-! ### Letters without a list in place -/

theorem plain_append : plain next q (u ++ v) = (plain next q u).bind fun m => plain next m v := by
  induction u generalizing q with
  | nil => rfl
  | cons c u ih =>
    rw [List.cons_append, plain, plain]
    cases next q c with
    | inl q' => exact ih
    | inr a => rfl

theorem plain_concat (h : plain next q u = some m) (hnext : next m c = .inl r) :
    plain next q (u ++ [c]) = some r := by
  rw [plain_append, h, Option.bind_some, plain, hnext]
  rfl

/-- The last letter that has been read. -/
theorem plain_concat_eq_some (h : plain next q (u ++ [c]) = some r) :
    ∃ m, plain next q u = some m ∧ next m c = .inl r := by
  rw [plain_append] at h
  obtain ⟨m, hu, hc⟩ := Option.bind_eq_some_iff.mp h
  refine ⟨m, hu, ?_⟩
  rw [plain] at hc
  cases hnext : next m c with
  | inl q' =>
    rw [hnext] at hc
    obtain rfl := Option.some.inj hc
    rfl
  | inr a =>
    rw [hnext] at hc
    cases hc

theorem Reads.of_plain (h : plain next q v = some r) : Reads next q v r := by
  induction v generalizing q with
  | nil =>
    obtain rfl := Option.some.inj h
    exact .nil q
  | cons c v ih =>
    rw [plain] at h
    cases hnext : next q c with
    | inl q' =>
      rw [hnext] at h
      exact .letter hnext (ih h)
    | inr a =>
      rw [hnext] at h
      cases h

/-- Either no list is read in place, or there is a first letter in place of which one is. -/
theorem plain_or_exists (next : σ → α → σ ⊕ (σ × List α)) (q : σ) (v : List α) :
    (∃ r, plain next q v = some r) ∨ ∃ u c rest m a, v = u ++ c :: rest ∧
      plain next q u = some m ∧ next m c = .inr a := by
  induction v generalizing q with
  | nil => exact .inl ⟨q, rfl⟩
  | cons c v ih =>
    cases hnext : next q c with
    | inl q' =>
      obtain ⟨r, hr⟩ | ⟨u, d, rest, m, a, rfl, hu, ha⟩ := ih q'
      · refine .inl ⟨r, ?_⟩
        rw [plain, hnext]
        exact hr
      · refine .inr ⟨c :: u, d, rest, m, a, rfl, ?_, ha⟩
        rw [plain, hnext]
        exact hu
    | inr a => exact .inr ⟨[], c, v, q, a, rfl, rfl, hnext⟩

/-! ### Chains of calls -/

/-- Whoever has been read calls nobody forever, by induction on the reading. -/
theorem Reads.acc (h : Reads next q v r) : Acc (Calls next) (q, v) := by
  induction h with
  | nil q =>
    refine ⟨_, ?_⟩
    rintro a ⟨u, c, rest, m, hv, -⟩
    exact absurd hv.symm (List.append_ne_nil_of_right_ne_nil u (List.cons_ne_nil c rest))
  | @letter q q' r c v hnext hv ih =>
    refine ⟨_, ?_⟩
    rintro a ⟨u, d, rest, m, hcons, hu, ha⟩
    cases hu with
    | nil =>
      obtain ⟨rfl, rfl⟩ := List.cons.inj hcons
      cases hnext.symm.trans ha
    | letter hnext' hu =>
      obtain ⟨rfl, rfl⟩ := List.cons.inj hcons
      obtain rfl := Sum.inl.inj (hnext.symm.trans hnext')
      exact ih.inv ⟨_, d, rest, m, rfl, hu, ha⟩
    | nested hnext' _ _ =>
      obtain ⟨rfl, rfl⟩ := List.cons.inj hcons
      cases hnext.symm.trans hnext'
  | @nested q q' q'' r c v w hnext hw hv ihw ihv =>
    refine ⟨_, ?_⟩
    rintro a ⟨u, d, rest, m, hcons, hu, ha⟩
    cases hu with
    | nil =>
      -- what is read in place of the first letter
      obtain ⟨rfl, rfl⟩ := List.cons.inj hcons
      obtain rfl := Sum.inr.inj (hnext.symm.trans ha)
      exact ihw
    | letter hnext' _ =>
      obtain ⟨rfl, rfl⟩ := List.cons.inj hcons
      cases hnext.symm.trans hnext'
    | nested hnext' hw' hu =>
      obtain ⟨rfl, rfl⟩ := List.cons.inj hcons
      obtain ⟨rfl, rfl⟩ := Prod.mk.inj (Sum.inr.inj (hnext.symm.trans hnext'))
      obtain rfl := hw.deterministic hw'
      exact ihv.inv ⟨_, d, rest, m, rfl, hu, ha⟩

/-- A list is read to its end if all that it calls are, by induction on the rest. -/
theorem exists_reads_of_calls (h : ∀ a, Calls next a (q, v) → ∃ r, Reads next a.1 a.2 r) :
    ∃ r, Reads next q v r := by
  have hrest : ∀ rest u m, v = u ++ rest → Reads next q u m → ∃ r, Reads next m rest r := by
    intro rest
    induction rest with
    | nil => exact fun u m _ _ => ⟨m, .nil m⟩
    | cons c rest ih =>
      intro u m hv hu
      have hv' : v = u ++ [c] ++ rest := by rw [hv, List.append_assoc]; rfl
      cases hnext : next m c with
      | inl q' =>
        obtain ⟨r, hr⟩ := ih _ q' hv' (hu.append (.letter hnext (.nil q')))
        exact ⟨r, .letter hnext hr⟩
      | inr a =>
        obtain ⟨q'', hw⟩ := h a ⟨u, c, rest, m, hv, hu, hnext⟩
        obtain ⟨r, hr⟩ := ih _ q'' hv' (hu.append (.nested hnext hw (.nil q'')))
        exact ⟨r, .nested hnext hw hr⟩
  exact hrest v [] q rfl (.nil q)

theorem exists_reads_iff_acc : (∃ r, Reads next q v r) ↔ Acc (Calls next) (q, v) := by
  constructor
  · rintro ⟨r, h⟩
    exact h.acc
  · intro h
    generalize hb : (q, v) = b at h
    induction h generalizing q v with
    | intro b _ ih =>
      subst hb
      exact exists_reads_of_calls fun a ha => ih a ha rfl

/-- **Reading ends precisely if no chain of calls goes on forever.** -/
theorem exists_reads_iff :
    (∃ r, Reads next q v r) ↔
      ¬∃ f : ℕ → σ × List α, f 0 = (q, v) ∧ ∀ n, Calls next (f (n + 1)) (f n) := by
  rw [exists_reads_iff_acc, ← not_acc_iff_exists_descending_chain, not_not]

end NestedReading

end UtilityFramework
