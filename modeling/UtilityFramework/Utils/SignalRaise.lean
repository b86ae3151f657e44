import UtilityFramework.Lib.Transition
import UtilityFramework.Utils.Signal

/-!
# Raising a signal

A raise of `utils::signal` copies the subscribed functions while it holds the lock, into an array
on the stack if they are not more than `MAX_STACK_SUBSCRIBERS_COUNT` and into a vector otherwise,
releases the lock and invokes the copies one by one. Between two invocations anything may happen
to the signal: the callbacks, and other threads, subscribe, unsubscribe and raise it.

`SignalState.step` is one such step of one party, and `SignalState.invocations_raise` says that
every raise, in every interleaving, invokes what `Signal.raise` lists.
-/

namespace UtilityFramework

universe u v

variable {φ : Type u} {α : Type v}

/-- `MAX_STACK_SUBSCRIBERS_COUNT`. -/
def maxStackSubscribersCount : ℕ := 32

/-! ### The copies -/

namespace Signal

/-- The loop that copies the functions, with the null pointers they are copied over. -/
def fill (cloned : List (Option φ)) (index : ℕ) : List (ℤ × φ) → List (Option φ)
  | [] => cloned
  | (_, f) :: rest => fill (cloned.set index (some f)) (index + 1) rest

/-- `cloned_functions`: the array on the stack, or the vector. -/
def clonedFunctions (s : Signal φ) : List (Option φ) :=
  if s.count ≤ maxStackSubscribersCount then
    fill (List.replicate maxStackSubscribersCount none) 0 s.subscribers
  else fill (List.replicate s.count none) 0 s.subscribers

/-- The loop writes the functions one behind another. -/
theorem fill_append (done : List (Option φ)) (l : List (ℤ × φ)) (free : List (Option φ))
    (h : l.length ≤ free.length) : fill (done ++ free) done.length l =
      done ++ l.map (fun p => some p.2) ++ free.drop l.length := by
  induction l generalizing done free with
  | nil => simp [fill]
  | cons p l ih =>
    cases free with
    | nil => simp at h
    | cons c free =>
      have hset : (done ++ c :: free).set done.length (some p.2) =
          (done ++ [some p.2]) ++ free := by simp
      have hfill := ih (done ++ [some p.2]) free (Nat.le_of_succ_le_succ h)
      rw [List.length_append, List.length_singleton] at hfill
      rw [fill, hset, hfill, List.map_cons, List.length_cons, List.drop_succ_cons]
      simp

/-- **Copies.** Whichever container they are in, the first of them are the functions in order. -/
theorem take_clonedFunctions (s : Signal φ) :
    s.clonedFunctions.take s.count = s.raise.map some := by
  have hfill (n : ℕ) (hn : s.count ≤ n) :
      (fill (List.replicate n none) 0 s.subscribers).take s.count = s.raise.map some := by
    have heq := fill_append ([] : List (Option φ)) s.subscribers (List.replicate n none)
      (by rwa [List.length_replicate])
    rw [List.nil_append, List.length_nil, List.nil_append] at heq
    rw [heq, raise, List.map_map]
    exact List.take_left' (List.length_map ..)
  rw [clonedFunctions]
  split_ifs with hcount
  · exact hfill _ hcount
  · exact hfill _ le_rfl

/-- The tokens ascend, as a `std::map` keeps them. -/
def Ascending (s : Signal φ) : Prop := (s.subscribers.map Prod.fst).Pairwise (· < ·)

theorem Ascending.subscribe {s : Signal φ} (h : s.Ascending) (f : φ) :
    (s.subscribe f).1.Ascending := by
  rw [Signal.subscribe]
  split
  · exact h
  · rename_i token htoken
    have hnodup := (s.emplace token f (freeToken_not_mem htoken)).keys_nodup
    have hle : ((s.emplace token f (freeToken_not_mem htoken)).subscribers.map
        Prod.fst).Pairwise (· ≤ ·) := by
      have htokens := List.map_orderedInsert (fun p q : ℤ × φ => p.1 ≤ q.1) (· ≤ ·) Prod.fst
        s.subscribers (token, f) (fun _ _ => Iff.rfl) fun _ _ => Iff.rfl
      rw [emplace, htokens]
      exact List.Pairwise.orderedInsert token _ (h.imp le_of_lt)
    exact (hle.and hnodup).imp fun h => lt_of_le_of_ne h.1 h.2

theorem Ascending.unsubscribe {s : Signal φ} (h : s.Ascending) (token : ℤ) :
    (s.unsubscribe token).1.Ascending := by
  rw [Signal.unsubscribe]
  split
  · exact List.Pairwise.sublist (List.filter_sublist.map Prod.fst) h
  · exact h

end Signal

/-! ### Raises under way -/

/-- A raise: `cloned_functions`, `subscribers_count`, the loop variable and what is left in
`args`. -/
structure Delivery (φ : Type u) (α : Type v) where
  clonedFunctions : List (Option φ)
  subscribersCount : ℕ
  i : ℕ
  args : α

/-- A raise that has released the lock. -/
def Delivery.start (s : Signal φ) (args : α) : Delivery φ α :=
  ⟨s.clonedFunctions, s.count, 0, args⟩

/-- The function that the loop invokes next. There is none if the loop is over, nor if the pointer
is null. -/
def Delivery.next (d : Delivery φ α) : Option φ :=
  if d.i < d.subscribersCount then (d.clonedFunctions[d.i]?).join else none

/-- A signal with its raises, each under an id, and the invocations so far. -/
structure SignalState (φ : Type u) (α : Type v) where
  signal : Signal φ
  raises : ℕ → Option (Delivery φ α)
  invoked : List (ℕ × φ × α)

/-- A step of a callback or a thread. -/
inductive SignalStep (φ : Type u) (α : Type v)
  | subscribe (f : φ)
  | unsubscribe (token : ℤ)
  | raise (id : ℕ) (args : α)
  | invoke (id : ℕ)

/-- The step is a turn of the loop of this raise. -/
def SignalStep.isInvoke (id : ℕ) : SignalStep φ α → Bool
  | .invoke id' => id' = id
  | _ => false

namespace SignalState

/-- A signal without subscribers and raises. -/
def start : SignalState φ α := ⟨.empty, fun _ => none, []⟩

/-- One step. `std::forward` moves the arguments into the parameters of `invoke`: `move args` is
what the callback gets and what it leaves in `args`. -/
def step (move : α → α × α) (s : SignalState φ α) : SignalStep φ α → Option (SignalState φ α)
  | .subscribe f => some { s with signal := (s.signal.subscribe f).1 }
  | .unsubscribe token => some { s with signal := (s.signal.unsubscribe token).1 }
  | .raise id args =>
    if (s.raises id).isSome then none
    else some { s with raises := Function.update s.raises id (some (.start s.signal args)) }
  | .invoke id =>
    (s.raises id).bind fun d => d.next.map fun f =>
      { s with
        raises := Function.update s.raises id
          (some { d with i := d.i + 1, args := (move d.args).2 })
        invoked := s.invoked ++ [(id, f, (move d.args).1)] }

/-- What a raise has invoked. -/
def invocations (s : SignalState φ α) (id : ℕ) : List (φ × α) :=
  (s.invoked.filter fun e => e.1 = id).map Prod.snd

/-- The loop of a raise is over. -/
def Returned (s : SignalState φ α) (id : ℕ) : Prop :=
  ∃ d, s.raises id = some d ∧ d.subscribersCount ≤ d.i

variable {move : α → α × α} {s t u : SignalState φ α} {id : ℕ}

/-! ### Before a raise -/

/-- What holds before a raise: the subscribers are in order, and a raise that has not begun has
invoked nothing. -/
structure Ready (s : SignalState φ α) : Prop where
  ascending : s.signal.Ascending
  invocations_eq_nil : ∀ id, s.raises id = none → s.invocations id = []

theorem ready_start : (start : SignalState φ α).Ready := ⟨List.Pairwise.nil, fun _ _ => rfl⟩

theorem invocations_append (s : SignalState φ α) (e : ℕ × φ × α)
    (raises : ℕ → Option (Delivery φ α)) (id : ℕ) :
    invocations { s with raises := raises, invoked := s.invoked ++ [e] } id =
      s.invocations id ++ if e.1 = id then [e.2] else [] := by
  rw [invocations, invocations, List.filter_append, List.map_append, List.filter_singleton]
  split_ifs with h <;> simp [h]

theorem Ready.of_step {a : SignalStep φ α} (h : s.Ready) (ht : step move s a = some t) :
    t.Ready := by
  cases a with
  | subscribe f =>
    obtain rfl := Option.some.inj ht
    exact ⟨h.ascending.subscribe f, h.invocations_eq_nil⟩
  | unsubscribe token =>
    obtain rfl := Option.some.inj ht
    exact ⟨h.ascending.unsubscribe token, h.invocations_eq_nil⟩
  | raise id args =>
    rw [SignalState.step] at ht
    split_ifs at ht with hused
    obtain rfl := Option.some.inj ht
    refine ⟨h.ascending, fun j hj => h.invocations_eq_nil j ?_⟩
    rcases eq_or_ne j id with rfl | hne
    · exact Option.not_isSome_iff_eq_none.mp hused
    · exact (Function.update_of_ne hne _ _).symm.trans hj
  | invoke id =>
    obtain ⟨d, hd, ht⟩ := Option.bind_eq_some_iff.mp ht
    obtain ⟨f, -, rfl⟩ := Option.map_eq_some_iff.mp ht
    refine ⟨h.ascending, fun j hj => ?_⟩
    rcases eq_or_ne j id with rfl | hne
    · exact absurd ((Function.update_self ..).symm.trans hj) (Option.some_ne_none _)
    · rw [invocations_append, if_neg hne.symm, List.append_nil]
      exact h.invocations_eq_nil j ((Function.update_of_ne hne _ _).symm.trans hj)

/-! ### During a raise -/

/-- A raise of these functions has had `n` turns. -/
structure Delivering (functions : List φ) (args : α) (id n : ℕ) (s : SignalState φ α) :
    Prop where
  le : n ≤ functions.length
  invocations_eq : s.invocations id = (functions.take n).map fun f => (f, args)
  raises_eq : ∃ cloned, s.raises id = some ⟨cloned, functions.length, n, args⟩ ∧
    cloned.take functions.length = functions.map some

/-- A raise that has just begun. -/
theorem Ready.delivering {args : α} (h : s.Ready) (ht : step move s (.raise id args) = some t) :
    t.Delivering s.signal.raise args id 0 := by
  have hcount : s.signal.raise.length = s.signal.count := List.length_map ..
  rw [SignalState.step] at ht
  split_ifs at ht with hused
  obtain rfl := Option.some.inj ht
  refine ⟨Nat.zero_le _, ?_, s.signal.clonedFunctions, ?_, ?_⟩
  · exact h.invocations_eq_nil id (Option.not_isSome_iff_eq_none.mp hused)
  · rw [hcount]
    exact Function.update_self ..
  · rw [hcount]
    exact s.signal.take_clonedFunctions

section Steps

variable {functions : List φ} {args : α} {n : ℕ}

/-- The next turn invokes the next function: no pointer is null. -/
theorem Delivering.next_eq (h : s.Delivering functions args id n) {d : Delivery φ α}
    (hd : s.raises id = some d) : d.next = functions[n]? := by
  obtain ⟨cloned, hraises, hcloned⟩ := h.raises_eq
  obtain rfl := Option.some.inj (hd.symm.trans hraises)
  rw [Delivery.next]
  split_ifs with hlt
  · have hget : cloned[n]? = (functions.map some)[n]? := by
      rw [← hcloned, List.getElem?_take_of_lt hlt]
    rw [hget, List.getElem?_map, List.getElem?_eq_getElem hlt]
    rfl
  · exact (List.getElem?_eq_none (not_lt.mp hlt)).symm

/-- **One turn** of the loop. -/
theorem Delivering.invoke (hmove : ∀ a, move a = (a, a)) (h : s.Delivering functions args id n)
    (ht : step move s (.invoke id) = some t) : t.Delivering functions args id (n + 1) := by
  obtain ⟨d, hd, ht⟩ := Option.bind_eq_some_iff.mp ht
  obtain ⟨f, hf, rfl⟩ := Option.map_eq_some_iff.mp ht
  rw [h.next_eq hd] at hf
  obtain ⟨hlt, rfl⟩ := List.getElem?_eq_some_iff.mp hf
  obtain ⟨cloned, hraises, hcloned⟩ := h.raises_eq
  obtain rfl := Option.some.inj (hd.symm.trans hraises)
  refine ⟨hlt, ?_, cloned, ?_, hcloned⟩
  · rw [invocations_append, if_pos rfl, h.invocations_eq, hmove, List.take_add_one,
      List.getElem?_eq_getElem hlt, List.map_append]
    rfl
  · rw [hmove]
    exact Function.update_self ..

/-- Steps of other parties leave a raise alone. -/
theorem Delivering.step_of_not_isInvoke {a : SignalStep φ α}
    (h : s.Delivering functions args id n) (ha : a.isInvoke id = false)
    (ht : step move s a = some t) : t.Delivering functions args id n := by
  obtain ⟨hle, hinvocations, cloned, hraises, hcloned⟩ := h
  cases a with
  | subscribe f =>
    obtain rfl := Option.some.inj ht
    exact ⟨hle, hinvocations, cloned, hraises, hcloned⟩
  | unsubscribe token =>
    obtain rfl := Option.some.inj ht
    exact ⟨hle, hinvocations, cloned, hraises, hcloned⟩
  | raise j args' =>
    rw [SignalState.step] at ht
    split_ifs at ht with hused
    obtain rfl := Option.some.inj ht
    -- the number of a raise that has begun is not given again
    have hne : id ≠ j := by
      rintro rfl
      exact hused (Option.isSome_of_eq_some hraises)
    exact ⟨hle, hinvocations, cloned, (Function.update_of_ne hne _ _).trans hraises, hcloned⟩
  | invoke j =>
    have hne : id ≠ j := fun heq => of_decide_eq_false ha heq.symm
    obtain ⟨d, -, ht⟩ := Option.bind_eq_some_iff.mp ht
    obtain ⟨f, -, rfl⟩ := Option.map_eq_some_iff.mp ht
    refine ⟨hle, ?_, cloned, (Function.update_of_ne hne _ _).trans hraises, hcloned⟩
    rw [invocations_append, if_neg hne.symm, List.append_nil, hinvocations]

/-- **Runs.** A raise advances by its own turns, whatever the others do. -/
theorem Delivering.run (hmove : ∀ a, move a = (a, a)) {l : List (SignalStep φ α)}
    (h : s.Delivering functions args id n) (hr : Transition.run (step move) s l = some u) :
    u.Delivering functions args id (n + l.countP (SignalStep.isInvoke id)) := by
  induction l generalizing s n with
  | nil => exact Option.some.inj hr ▸ h
  | cons a l ih =>
    obtain ⟨t, ht, hr'⟩ := Transition.run_cons_eq_some.mp hr
    rw [List.countP_cons]
    by_cases ha : a.isInvoke id = true
    · rw [if_pos ha, add_comm _ 1, ← add_assoc]
      cases a with
      | invoke j =>
        obtain rfl : j = id := of_decide_eq_true ha
        exact ih (h.invoke hmove ht) hr'
      | subscribe | unsubscribe | raise => cases ha
    · rw [if_neg ha, add_zero]
      exact ih (h.step_of_not_isInvoke (Bool.eq_false_iff.mpr ha) ht) hr'

/-- The loop is over when it has had all its turns. -/
theorem Delivering.returned_iff (h : s.Delivering functions args id n) :
    s.Returned id ↔ n = functions.length := by
  obtain ⟨cloned, hraises, -⟩ := h.raises_eq
  refine ⟨?_, fun heq => ⟨_, hraises, heq.ge⟩⟩
  rintro ⟨d, hd, hle⟩
  obtain rfl := Option.some.inj (hd.symm.trans hraises)
  exact le_antisymm h.le hle

/-- Until then there is a next turn. -/
theorem Delivering.exists_step (h : s.Delivering functions args id n)
    (hlt : n < functions.length) : ∃ t, step move s (.invoke id) = some t := by
  obtain ⟨cloned, hraises, -⟩ := h.raises_eq
  have hnext := h.next_eq hraises
  rw [List.getElem?_eq_getElem hlt] at hnext
  rw [step, hraises, Option.bind_some, hnext]
  exact ⟨_, rfl⟩

end Steps

/-- **Delivery.** After whatever has been done to a signal, a raise takes its turns through the
functions that were subscribed when it began, in ascending order of their tokens, each with the
arguments of the raise, whatever is done to the signal between the turns: it returns precisely
when it has invoked all of them, and until then its next turn is possible. -/
theorem invocations_raise (hmove : ∀ a, move a = (a, a)) {l l' : List (SignalStep φ α)}
    {args : α} (hs : Transition.run (step move) start l = some s)
    (ht : step move s (.raise id args) = some t)
    (hu : Transition.run (step move) t l' = some u) :
    (s.signal.subscribers.map Prod.fst).Pairwise (· < ·) ∧
      u.invocations id =
        (s.signal.raise.take (l'.countP (SignalStep.isInvoke id))).map (fun f => (f, args)) ∧
      (u.Returned id ↔ l'.countP (SignalStep.isInvoke id) = s.signal.raise.length) ∧
      (¬u.Returned id → ∃ v, step move u (.invoke id) = some v) := by
  have hready : s.Ready :=
    Transition.run_invariant hs (fun _ _ _ h hstep => h.of_step hstep) ready_start
  have hdelivering := (hready.delivering ht).run hmove hu
  rw [Nat.zero_add] at hdelivering
  refine ⟨hready.ascending, hdelivering.invocations_eq, hdelivering.returned_iff, fun hnot => ?_⟩
  rw [hdelivering.returned_iff] at hnot
  exact hdelivering.exists_step (lt_of_le_of_ne hdelivering.le hnot)

/-- A callback that is unsubscribed by another one during the raise is invoked, one that is
subscribed is not. -/
theorem invocations_raise_two : ∃ s t u : SignalState ℕ ℤ,
    Transition.run (step fun a => (a, a)) start [.subscribe 5, .subscribe 6] = some s ∧
      step (fun a => (a, a)) s (.raise 0 7) = some t ∧
      Transition.run (step fun a => (a, a)) t
        [.invoke 0, .unsubscribe 1, .subscribe 8, .invoke 0] = some u ∧
      u.invocations 0 = [(5, 7), (6, 7)] := by
  refine ⟨_, _, _, rfl, rfl, rfl, ?_⟩
  exact (@invocations_raise ℕ ℤ (fun a => (a, a)) _ _ _ 0 (fun _ => rfl)
    [.subscribe 5, .subscribe 6] [.invoke 0, .unsubscribe 1, .subscribe 8, .invoke 0] 7
    rfl rfl rfl).2.1

end SignalState

end UtilityFramework
