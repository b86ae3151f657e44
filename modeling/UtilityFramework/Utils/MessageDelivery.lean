import UtilityFramework.Utils.MessageDispatcher

/-!
# Delivery of messages

Each registration of a callback gets the messages posted while it is registered. `Kept` says
where they are: those that other threads have posted are the messages of the actions that the
dispatcher of the invoker has accepted, and the one that a thread in `post_message` is about to
hand over (`due`); those that the callback posts itself are delivered by the post.

An invoker that has been taken out of `m_callbacks` is not visited by any `post_message`, so
the reference of `remove_callback` is the last one, and the dispatcher is drained before
`remove_callback` returns.
-/

namespace UtilityFramework

open Transition

namespace MessageDispatcher

variable {τ κ μ : Type*} [DecidableEq τ] {supported : κ → μ → Bool}
  {s t : MessageDispatcher τ κ μ} {v u : ℕ} {i i' : MessageInvoker τ κ μ}

/-- A message that the callback of invoker `v` has posted itself. -/
def own (v : ℕ) (p : Caller τ × μ) : Bool := p.1 = .invocation v

/-- Who visits invoker `v` in `post_message`. -/
def visitor (s : MessageDispatcher τ κ μ) (v : ℕ) : Option (Caller τ) :=
  match s.mutex with
  | .posting caller _ (some u) _ => if u = v then some caller else none
  | _ => none

/-- The message that `post_message` has still to hand to the invoker `v`. -/
def due (supported : κ → μ → Bool) (s : MessageDispatcher τ κ μ) (v : ℕ) (callback : κ) :
    List (Caller τ × μ) :=
  match s.mutex with
  | .free => []
  | .posting caller message current rest =>
    if (current = some v ∨ v ∈ rest) ∧ supported callback message then [(caller, message)]
    else []

/-- Invoker `v` against what the log says about its registration `r`. -/
structure Kept (v : ℕ) (i : MessageInvoker τ κ μ) (member : Prop) (visitor : Option (Caller τ))
    (due : List (Caller τ × μ)) (r : Registration τ κ μ) : Prop where
  inv : i.context.Inv
  draining : i.context.Draining
  length : i.messages.length = i.context.accepted
  others : i.messages.filter (!own v ·) = i.messages
  deliveredOthers : r.delivered.filter (!own v ·) = i.messages.take i.context.log.length
  postedOthers : r.posted.filter (!own v ·) = i.messages ++ due.filter (!own v ·)
  postedOwn : r.posted.filter (own v) = r.delivered.filter (own v) ++ due.filter (own v)
  registered : member → r.callback = some i.callback
  unregistered : ¬member → r.callback = none
  adding : ∀ holder, i.context.mutex = .adding holder →
    visitor = some holder ∧ holder ≠ .invocation v ∧ due ≠ []
  counted : member → i.removal = .none ∧ i.references = 1 + visitor.toList.length
  left : ¬member → visitor = none ∧ due = [] ∧ i.removal ≠ .none
  erased : ∀ caller, i.removal = .erased caller → i.references = 1
  released : ∀ caller, i.removal = .released caller → i.references = 0
  disposed : i.context.disposal ≠ .none → i.references = 0
  returned : r.returned = true ↔ i.removal = .returned
  done : i.removal = .returned → i.context.disposal = .done

/-- The invoker that an event is about. -/
def about : DispatchEvent τ κ μ → Option ℕ
  | .added v _ | .delivered v _ _ | .removed v | .returned v => some v
  | .posted _ _ => none

/-- Messages are delivered to registrations that have begun and whose `remove_callback` has
not returned. -/
def Timely (log : List (DispatchEvent τ κ μ)) : Prop :=
  ∀ l₁ l₂ v caller message, log = l₁ ++ .delivered v caller message :: l₂ →
    (∃ callback, .added v callback ∈ l₁) ∧ .returned v ∉ l₁

variable (supported) in
structure Inv (s : MessageDispatcher τ κ μ) : Prop where
  kept : ∀ v i, s.invokers[v]? = some i → Kept v i (v ∈ s.callbacks) (s.visitor v)
    (s.due supported v i.callback) (s.registration supported v)
  callbacks_lt : ∀ v ∈ s.callbacks, v < s.invokers.length
  callbacks_nodup : s.callbacks.Nodup
  visits : ∀ caller message current rest, s.mutex = .posting caller message current rest →
    (current.toList ++ rest).Nodup ∧ ∀ v ∈ current.toList ++ rest, v ∈ s.callbacks
  fresh : ∀ v, s.invokers.length ≤ v → s.registration supported v = .empty
  added : ∀ v < s.invokers.length, ∃ callback, .added v callback ∈ s.log
  timely : Timely s.log

/-! ### The log -/

omit [DecidableEq τ] in
theorem registration_append {log : List (DispatchEvent τ κ μ)}
    (h : t.log = s.log ++ log) (v : ℕ) :
    t.registration supported v =
      log.foldl (Registration.observe supported v) (s.registration supported v) := by
  rw [registration, h, List.foldl_append]
  rfl

omit [DecidableEq τ] in
/-- Events about one registration say nothing about another. -/
theorem foldl_observe_of_ne {log : List (DispatchEvent τ κ μ)}
    (h : ∀ e ∈ log, about e = some v) (huv : u ≠ v) (r : Registration τ κ μ) :
    log.foldl (Registration.observe supported u) r = r := by
  refine Transition.foldl_eq_self (fun e hmem r => ?_) r
  have he := h e hmem
  cases e <;> simp only [about, Option.some.injEq] at he
  case posted => cases he
  all_goals
    subst he
    exact if_neg huv.symm

omit [DecidableEq τ] in
theorem foldl_observe_returned (log : List (DispatchEvent τ κ μ)) (r : Registration τ κ μ) :
    (log.foldl (Registration.observe supported v) r).returned = true ↔
      r.returned = true ∨ .returned v ∈ log := by
  induction log generalizing r with
  | nil => simp
  | cons e log ih =>
    rw [List.foldl_cons, ih, List.mem_cons]
    have hstep : (Registration.observe supported v r e).returned = true ↔
        r.returned = true ∨ .returned v = e := by
      cases e with
      | returned u =>
        simp only [Registration.observe, DispatchEvent.returned.injEq]
        by_cases huv : u = v
        · simp [huv]
        · simp [huv, Ne.symm huv]
      | _ => simp only [Registration.observe, reduceCtorEq, or_false]; split <;> rfl
    rw [hstep, or_assoc]

omit [DecidableEq τ] in
theorem registration_returned_iff :
    (s.registration supported v).returned = true ↔ .returned v ∈ s.log := by
  rw [registration, foldl_observe_returned]
  simp [Registration.empty]

omit [DecidableEq τ] in
theorem Timely.append {log : List (DispatchEvent τ κ μ)} {e : DispatchEvent τ κ μ}
    (h : Timely log)
    (he : ∀ v caller message, e = .delivered v caller message →
      (∃ callback, .added v callback ∈ log) ∧ .returned v ∉ log) : Timely (log ++ [e]) := by
  intro l₁ l₂ v caller message hlog
  rcases List.eq_nil_or_concat l₂ with rfl | ⟨l, e', rfl⟩
  · obtain ⟨rfl, heq⟩ := List.append_inj' hlog rfl
    exact he v caller message (List.cons.inj heq).1
  · rw [List.concat_eq_append, ← List.cons_append, ← List.append_assoc] at hlog
    exact h l₁ l v caller message (List.append_inj' hlog rfl).1

/-! ### One invoker changes -/

/-- A step that changes invoker `v` only, and records only what happens to it. -/
theorem Inv.change (h : Inv supported s) (hv : s.invokers[v]? = some i)
    {events : List (DispatchEvent τ κ μ)} (hlen : events.length ≤ 1)
    (habout : ∀ e ∈ events, about e = some v)
    (hdelivered : ∀ u caller message, .delivered u caller message ∈ events →
      i.removal ≠ .returned)
    (hinvokers : t.invokers = s.invokers.set v i') (hlog : t.log = s.log ++ events)
    (hcallbacks : ∀ u, u ≠ v → (u ∈ t.callbacks ↔ u ∈ s.callbacks))
    (hsub : ∀ u ∈ t.callbacks, u ∈ s.callbacks) (hnodup : t.callbacks.Nodup)
    (hvisits : ∀ caller message current rest, t.mutex = .posting caller message current rest →
      (current.toList ++ rest).Nodup ∧ ∀ v ∈ current.toList ++ rest, v ∈ t.callbacks)
    (hvisitor : ∀ u, u ≠ v → t.visitor u = s.visitor u)
    (hdue : ∀ u, u ≠ v → ∀ callback, t.due supported u callback = s.due supported u callback)
    (hkept : Kept v i' (v ∈ t.callbacks) (t.visitor v) (t.due supported v i'.callback)
      (events.foldl (Registration.observe supported v) (s.registration supported v))) :
    Inv supported t := by
  have hvlt : v < s.invokers.length := (List.getElem?_eq_some_iff.mp hv).1
  have hlength : t.invokers.length = s.invokers.length := by rw [hinvokers, List.length_set]
  have hother : ∀ u, u ≠ v → t.registration supported u = s.registration supported u := by
    intro u hu
    rw [registration_append hlog, foldl_observe_of_ne habout hu]
  constructor
  · intro u j hu
    rw [hinvokers] at hu
    by_cases huv : u = v
    · subst huv
      rw [List.getElem?_set_self hvlt, Option.some.injEq] at hu
      subst hu
      rw [registration_append hlog]
      exact hkept
    · rw [List.getElem?_set_ne (Ne.symm huv)] at hu
      rw [hvisitor u huv, hdue u huv, hother u huv, hcallbacks u huv]
      exact h.kept u j hu
  · exact fun u hu => hlength ▸ h.callbacks_lt u (hsub u hu)
  · exact hnodup
  · exact hvisits
  · intro u hu
    rw [hlength] at hu
    rw [hother u (by omega)]
    exact h.fresh u hu
  · intro u hu
    rw [hlength] at hu
    obtain ⟨callback, hadded⟩ := h.added u hu
    exact ⟨callback, hlog ▸ List.mem_append_left _ hadded⟩
  · rw [hlog]
    match events, hlen with
    | [], _ =>
      rw [List.append_nil]
      exact h.timely
    | [e], _ =>
      refine h.timely.append fun u caller message he => ?_
      obtain rfl : u = v := by
        have := habout e List.mem_cons_self
        rw [he] at this
        exact Option.some.inj this
      refine ⟨h.added u hvlt, fun hreturned => ?_⟩
      refine hdelivered u caller message (by rw [he]; exact List.mem_cons_self) ?_
      exact (h.kept u i hv).returned.mp (registration_returned_iff.mpr hreturned)

/-- A step of an invoker at which nobody posts or visits anything else. -/
theorem Inv.update (h : Inv supported s) (hv : s.invokers[v]? = some i)
    {events : List (DispatchEvent τ κ μ)} (hlen : events.length ≤ 1)
    (habout : ∀ e ∈ events, about e = some v)
    (hdelivered : ∀ u caller message, .delivered u caller message ∈ events →
      i.removal ≠ .returned)
    (hkept : Kept v i' (v ∈ s.callbacks) (s.visitor v) (s.due supported v i'.callback)
      (events.foldl (Registration.observe supported v) (s.registration supported v))) :
    Inv supported (s.update v i' events) :=
  h.change hv hlen habout hdelivered rfl rfl (fun _ _ => Iff.rfl) (fun _ hu => hu)
    h.callbacks_nodup h.visits (fun _ _ => rfl) (fun _ _ _ => rfl) hkept

/-! ### What the steps of an invoker keep -/

section Kept

variable {member : Prop} {vis : Option (Caller τ)} {waiting : List (Caller τ × μ)}
  {r : Registration τ κ μ} {c : SimpleContext (Caller τ)} {caller : Caller τ} {message : μ}

/-- The dispatcher moves on; no action is accepted or invoked. -/
theorem Kept.move (h : Kept v i member vis waiting r) (hinv : c.Inv) (hdraining : c.Draining)
    (haccepted : c.accepted = i.context.accepted) (hlog : c.log = i.context.log)
    (hmutex : ∀ holder, c.mutex = .adding holder → i.context.mutex = .adding holder)
    (hdisposed : c.disposal ≠ .none → i.references = 0)
    (hdone : i.context.disposal = .done → c.disposal = .done) :
    Kept v { i with context := c } member vis waiting r :=
  { h with
    inv := hinv
    draining := hdraining
    length := h.length.trans haccepted.symm
    deliveredOthers := by rw [hlog]; exact h.deliveredOthers
    adding := fun holder hm => h.adding holder (hmutex holder hm)
    disposed := hdisposed
    done := fun hr => hdone (h.done hr) }

/-- The dispatcher invokes the next action, which delivers the next message. -/
theorem Kept.nextAction (h : Kept v i member vis waiting r)
    (hc : i.context.step .nextAction = some c) :
    ∃ m, i.nextDelivery v = [.delivered v m.1 m.2] ∧ i.removal ≠ .returned ∧
      Kept v { i with context := c } member vis waiting
        { r with delivered := r.delivered ++ [m] } := by
  have hinv := h.inv.step .nextAction hc
  have hdraining := h.draining.nextAction hc
  obtain ⟨stop, action, pending, hworker, hpending, rfl⟩ := h.draining.nextAction_of_step hc
  obtain ⟨rfl, hlt⟩ := h.draining.next h.inv hpending
  rw [← h.length] at hlt
  have hother : own v i.messages[i.context.log.length] = false := by
    have := List.filter_eq_self.mp h.others _ (List.getElem_mem hlt)
    simpa using this
  refine ⟨i.messages[i.context.log.length], ?_, ?_, ?_⟩
  · simp [MessageInvoker.nextDelivery, hpending, h.draining.stackStopper,
      List.getElem?_eq_getElem hlt]
  · intro hreturned
    have := h.draining.joined (.inr (h.done hreturned))
    rw [hworker] at this
    cases this
  · refine { h with
      inv := hinv
      draining := hdraining
      deliveredOthers := ?_
      postedOwn := ?_ }
    · rw [List.filter_append, h.deliveredOthers, List.length_append, List.length_singleton,
        List.take_add_one, List.getElem?_eq_getElem hlt]
      simp [hother]
    · rw [List.filter_append, h.postedOwn]
      simp [hother]

/-- The removal of a member has not begun. -/
theorem Kept.not_erased (h : Kept v i member vis waiting r) (hmember : member)
    (caller : Caller τ) : i.removal ≠ .erased caller := by
  rw [(h.counted hmember).1]
  rintro ⟨⟩

theorem Kept.not_released (h : Kept v i member vis waiting r) (hmember : member)
    (caller : Caller τ) : i.removal ≠ .released caller := by
  rw [(h.counted hmember).1]
  rintro ⟨⟩

/-- The context of a member is in use, since there is a reference to its invoker. -/
theorem Kept.disposal_eq (h : Kept v i member vis waiting r) (hmember : member) :
    i.context.disposal = .none := by
  by_contra hne
  have hzero := h.disposed hne
  rw [(h.counted hmember).2] at hzero
  omega

/-- A visit to the invoker begins. -/
theorem Kept.visit (h : Kept v i member none waiting r) (hmember : member) :
    Kept v { i with references := i.references + 1 } member (some caller) waiting r :=
  { h with
    adding := fun holder hm => by cases (h.adding holder hm).1
    counted := fun hm => ⟨(h.counted hm).1, by rw [(h.counted hm).2]; rfl⟩
    left := fun hm => absurd hmember hm
    erased := fun who hr => absurd hr (h.not_erased hmember who)
    released := fun who hr => absurd hr (h.not_released hmember who)
    disposed := fun hd => absurd (h.disposal_eq hmember) hd }

/-- A visit ends with nothing to hand over. -/
theorem Kept.leave (h : Kept v i member (some caller) waiting r)
    (hmutex : ∀ holder, i.context.mutex ≠ .adding holder) (hwaiting : waiting = []) :
    Kept v { i with references := i.references - 1 } member none [] r := by
  subst hwaiting
  have hmember : member := by
    by_contra hm
    cases (h.left hm).1
  exact { h with
    adding := fun holder hm => absurd hm (hmutex holder)
    counted := fun hm => ⟨(h.counted hm).1, by rw [(h.counted hm).2]; rfl⟩
    left := fun hm => absurd hmember hm
    erased := fun who hr => absurd hr (h.not_erased hmember who)
    released := fun who hr => absurd hr (h.not_released hmember who)
    disposed := fun hd => absurd (h.disposal_eq hmember) hd }

/-- The callback itself posts the message, which is delivered at once. -/
theorem Kept.deliverOwn (h : Kept v i member vis [(.invocation v, message)] r)
    (hvis : vis = some (.invocation v)) :
    (∀ holder, i.context.mutex ≠ .adding holder) ∧
      Kept v i member vis []
        { r with delivered := r.delivered ++ [(.invocation v, message)] } := by
  have hmutex : ∀ holder, i.context.mutex ≠ .adding holder := by
    intro holder hm
    obtain ⟨hholder, hne, -⟩ := h.adding holder hm
    rw [hvis, Option.some.injEq] at hholder
    exact hne hholder.symm
  have hown : own v ((.invocation v, message) : Caller τ × μ) = true := by simp [own]
  refine ⟨hmutex, { h with
    deliveredOthers := ?_
    postedOthers := ?_
    postedOwn := ?_
    adding := fun holder hm => absurd hm (hmutex holder)
    left := fun hm => ⟨(h.left hm).1, rfl, (h.left hm).2.2⟩ }⟩
  · rw [List.filter_append, h.deliveredOthers]
    simp [hown]
  · rw [h.postedOthers]
    simp [hown]
  · rw [List.filter_append, h.postedOwn]
    simp [hown]

/-- A thread in `post_message` takes the mutex of the dispatcher. -/
theorem Kept.addAction (h : Kept v i member (some caller) [(caller, message)] r)
    (hcaller : caller ≠ .invocation v) (hc : i.context.step (.addAction caller) = some c) :
    Kept v { i with context := c } member (some caller) [(caller, message)] r := by
  have hinv := h.inv.step _ hc
  have hdraining := h.draining.add (.inl hc)
  obtain ⟨-, ⟨-, rfl⟩ | ⟨-, rfl⟩⟩ := SimpleContext.addAction_of_step hc
  · exact { h with
      inv := hinv
      draining := hdraining
      adding := fun holder hm => by
        obtain rfl := ContextMutex.adding.inj hm
        exact ⟨rfl, hcaller, List.cons_ne_nil _ _⟩ }
  · exact h

/-- It hands over the message. -/
theorem Kept.pushAction (h : Kept v i member (some caller) [(caller, message)] r)
    (hcaller : caller ≠ .invocation v) (hc : i.context.step (.pushAction caller) = some c) :
    (∀ holder, c.mutex ≠ .adding holder) ∧
      Kept v { i with
        context := c
        messages := i.messages ++ [(caller, message)] } member (some caller) [] r := by
  have hinv := h.inv.step _ hc
  have hdraining := h.draining.add (.inr hc)
  have hother : own v (caller, message) = false := by simpa [own] using hcaller
  obtain ⟨-, hle, -⟩ := h.draining.placed h.inv
  obtain ⟨-, rfl⟩ := SimpleContext.pushAction_of_step hc
  refine ⟨by simp, { h with
    inv := hinv
    draining := hdraining
    length := ?_
    others := ?_
    deliveredOthers := ?_
    postedOthers := ?_
    postedOwn := ?_
    adding := by simp
    left := fun hm => ⟨(h.left hm).1, rfl, (h.left hm).2.2⟩ }⟩
  · rw [List.length_append, h.length]
    rfl
  · rw [List.filter_append, h.others]
    simp [hother]
  · rw [List.take_append_of_le_length (h.length ▸ hle)]
    exact h.deliveredOthers
  · rw [h.postedOthers]
    simp [hother]
  · rw [h.postedOwn]
    simp [hother]

/-- `remove_callback` takes the invoker out. -/
theorem Kept.remove (h : Kept v i member none [] r) (hmember : member) {left : Prop}
    (hleft : ¬left) : Kept v { i with
      references := i.references + 1 - 1
      removal := .erased caller } left none [] { r with callback := none } :=
  have hcounted := h.counted hmember
  have hreturned : r.returned ≠ true := fun hr => by
    have := h.returned.mp hr
    rw [hcounted.1] at this
    cases this
  { h with
    registered := fun hl => absurd hl hleft
    unregistered := fun _ => rfl
    counted := fun hl => absurd hl hleft
    left := fun _ => ⟨rfl, rfl, nofun⟩
    erased := fun _ _ => by rw [hcounted.2]; rfl
    released := nofun
    disposed := fun hd => by rw [h.disposed hd]
    returned := iff_of_false hreturned nofun
    done := nofun }

/-- It gives up its reference, which is the last. -/
theorem Kept.release (h : Kept v i member vis waiting r) (hremoval : i.removal = .erased caller) :
    Kept v { i with
      references := i.references - 1
      removal := .released caller } member vis waiting r :=
  have hnot : ¬member := fun hm => by
    have := (h.counted hm).1
    rw [hremoval] at this
    cases this
  have hreturned : r.returned ≠ true := fun hr => by
    have := h.returned.mp hr
    rw [hremoval] at this
    cases this
  { h with
    counted := fun hm => absurd hm hnot
    left := fun hm => ⟨(h.left hm).1, (h.left hm).2.1, nofun⟩
    erased := nofun
    released := fun _ _ => by rw [h.erased caller hremoval]
    disposed := fun _ => by rw [h.erased caller hremoval]
    returned := iff_of_false hreturned nofun
    done := nofun }

/-- It returns, the dispatcher being destroyed. -/
theorem Kept.returnRemove (h : Kept v i member vis waiting r)
    (hremoval : i.removal = .released caller)
    (hdone : ¬(i.references = 0 ∧ i.context.disposal ≠ .done)) :
    Kept v { i with removal := .returned } member vis waiting { r with returned := true } :=
  have hnot : ¬member := fun hm => by
    have := (h.counted hm).1
    rw [hremoval] at this
    cases this
  have hreferences := h.released caller hremoval
  { h with
    counted := fun hm => absurd hm hnot
    left := fun hm => ⟨(h.left hm).1, (h.left hm).2.1, nofun⟩
    erased := nofun
    released := nofun
    returned := iff_of_true rfl rfl
    done := fun _ => by
      by_contra hd
      exact hdone ⟨hreferences, hd⟩ }

/-- A message is posted. -/
theorem Kept.post (h : Kept v i member none [] r) [Decidable member] :
    Kept v i member none
      (if member ∧ supported i.callback message then [(caller, message)] else [])
      (Registration.observe supported v r (.posted caller message)) := by
  by_cases hdue : member ∧ supported i.callback message
  · rw [if_pos hdue]
    have hobserve : Registration.observe supported v r (.posted caller message) =
        { r with posted := r.posted ++ [(caller, message)] } :=
      if_pos (by rw [h.registered hdue.1]; exact hdue.2)
    rw [hobserve]
    exact { h with
      postedOthers := by rw [List.filter_append, h.postedOthers]; simp
      postedOwn := by rw [List.filter_append, h.postedOwn]; simp
      adding := fun holder hm => by cases (h.adding holder hm).1
      left := fun hm => absurd hdue.1 hm }
  · rw [if_neg hdue]
    have hobserve : Registration.observe supported v r (.posted caller message) = r := by
      refine if_neg fun hany => hdue ?_
      by_cases hm : member
      · rw [h.registered hm] at hany
        exact ⟨hm, hany⟩
      · rw [h.unregistered hm] at hany
        cases hany
    rw [hobserve]
    exact h

/-- A callback is added. -/
theorem kept_new (callback : κ) (hmember : member) :
    Kept v (newInvoker callback : MessageInvoker τ κ μ) member none []
      { (Registration.empty : Registration τ κ μ) with callback := some callback } where
  inv := SimpleContext.inv_init false false
  draining := SimpleContext.draining_init
  length := rfl
  others := rfl
  deliveredOthers := rfl
  postedOthers := rfl
  postedOwn := rfl
  registered _ := rfl
  unregistered hm := absurd hmember hm
  adding := nofun
  counted _ := ⟨rfl, rfl⟩
  left hm := absurd hmember hm
  erased := nofun
  released := nofun
  disposed hd := absurd rfl hd
  returned := iff_of_false nofun nofun
  done := nofun

end Kept

/-! ### What the steps keep -/

section Step

variable {caller : Caller τ} {message : μ} {current : Option ℕ} {rest : List ℕ} {callback : κ}

omit [DecidableEq τ] in
theorem visitor_of_mutex (h : s.mutex = .posting caller message current rest) (v : ℕ) :
    s.visitor v = if current = some v then some caller else none := by
  rw [visitor, h]
  cases current with
  | none => rfl
  | some u => simp only [Option.some.injEq]

omit [DecidableEq τ] in
theorem due_of_mutex (h : s.mutex = .posting caller message current rest) (v : ℕ)
    (callback : κ) : s.due supported v callback =
      if (current = some v ∨ v ∈ rest) ∧ supported callback message then [(caller, message)]
      else [] := by
  rw [due, h]

omit [DecidableEq τ] in
theorem visitor_of_free (h : s.mutex = .free) (v : ℕ) : s.visitor v = none := by
  rw [visitor, h]

omit [DecidableEq τ] in
theorem due_of_free (h : s.mutex = .free) (v : ℕ) (callback : κ) :
    s.due supported v callback = [] := by
  rw [due, h]

/-- The visit that `post_message` makes to an invoker ends, the message being handed over. -/
theorem Inv.leave (h : Inv supported s) (hv : s.invokers[v]? = some i)
    (hmutex : s.mutex = .posting caller message (some v) rest)
    {events : List (DispatchEvent τ κ μ)} (hlen : events.length ≤ 1)
    (habout : ∀ e ∈ events, about e = some v)
    (hadding : ∀ holder, i'.context.mutex ≠ .adding holder)
    (hkept : Kept v i' (v ∈ s.callbacks) (some caller) []
      (events.foldl (Registration.observe supported v) (s.registration supported v))) :
    Inv supported (s.leave v i' caller message rest events) := by
  obtain ⟨hnodup, hsub⟩ := h.visits _ _ _ _ hmutex
  have hmem : v ∈ s.callbacks := hsub v List.mem_cons_self
  have hrest : v ∉ rest := (List.nodup_cons.mp hnodup).1
  have hleave : (s.leave v i' caller message rest events).mutex =
      .posting caller message none rest := rfl
  refine h.change hv hlen habout (fun _ _ _ _ hr => ?_) rfl rfl (fun _ _ => Iff.rfl)
    (fun _ hu => hu) h.callbacks_nodup ?_ ?_ ?_ ?_
  · have := ((h.kept v i hv).counted hmem).1
    rw [hr] at this
    cases this
  · intro caller' message' current' rest' hm
    obtain ⟨rfl, rfl, rfl, rfl⟩ := CallbacksMutex.posting.inj (hleave.symm.trans hm)
    exact ⟨(List.nodup_cons.mp hnodup).2, fun u hu => hsub u (List.mem_cons_of_mem v hu)⟩
  · intro u hu
    rw [visitor_of_mutex hleave, visitor_of_mutex hmutex, if_neg nofun,
      if_neg fun he => hu (Option.some.inj he).symm]
  · intro u hu c
    rw [due_of_mutex hleave, due_of_mutex hmutex]
    simp [Ne.symm hu]
  · rw [visitor_of_mutex hleave, if_neg nofun, due_of_mutex hleave, if_neg (by simp [hrest])]
    exact hkept.leave hadding rfl

/-- A thread in `post_message` does what it does for the invoker it visits. -/
theorem Inv.invokeAsync (h : Inv supported s) (hv : s.invokers[v]? = some i)
    (hmutex : s.mutex = .posting caller message (some v) rest)
    (ht : s.invokeAsync supported v i caller message rest = some t) : Inv supported t := by
  have hkept := h.kept v i hv
  rw [visitor_of_mutex hmutex, if_pos rfl, due_of_mutex hmutex] at hkept
  have hmem : v ∈ s.callbacks := (h.visits _ _ _ _ hmutex).2 v List.mem_cons_self
  rw [MessageDispatcher.invokeAsync] at ht
  by_cases hsupported : supported i.callback message = true
  · rw [if_pos ⟨.inl rfl, hsupported⟩] at hkept
    rw [if_pos hsupported] at ht
    by_cases hown : caller = .invocation v
    · rw [if_pos hown] at ht
      obtain rfl := Option.some.inj ht
      subst hown
      obtain ⟨hadding, hdelivered⟩ := hkept.deliverOwn rfl
      refine h.leave hv hmutex (Nat.le_refl 1) (by simp [about]) hadding ?_
      rw [List.foldl_cons, List.foldl_nil, Registration.observe, if_pos rfl]
      exact hdelivered
    · rw [if_neg hown] at ht
      split at ht
      · obtain ⟨c, hc, rfl⟩ := Option.map_eq_some_iff.mp ht
        obtain ⟨hadding, hpushed⟩ := hkept.pushAction hown hc
        exact h.leave hv hmutex (Nat.zero_le 1) (by simp) hadding hpushed
      · split at ht
        · obtain ⟨c, hc, rfl⟩ := Option.map_eq_some_iff.mp ht
          have hadded := hkept.addAction hown hc
          refine h.update hv (Nat.zero_le 1) (by simp) (by simp) ?_
          rw [visitor_of_mutex hmutex, if_pos rfl, due_of_mutex hmutex,
            if_pos ⟨.inl rfl, hsupported⟩]
          exact hadded
        · -- an invoker that is registered is not being disposed of
          rename_i hrunning
          refine absurd (hkept.draining.running ?_) hrunning
          by_contra hd
          have := hkept.disposed hd
          rw [(hkept.counted hmem).2] at this
          cases this
  · rw [if_neg fun hc => hsupported hc.2] at hkept
    rw [if_neg hsupported] at ht
    obtain rfl := Option.some.inj ht
    exact h.leave hv hmutex (Nat.zero_le 1) (by simp)
      (fun holder hm => (hkept.adding holder hm).2.2 rfl) hkept

/-- The thread in `post_message` goes on. -/
theorem Inv.post (h : Inv supported s) (ht : s.post supported = some t) : Inv supported t := by
  rw [MessageDispatcher.post] at ht
  split at ht
  · cases ht
  · rename_i caller message hmutex
    obtain rfl := Option.some.inj ht
    refine ⟨fun v i hv => ?_, h.callbacks_lt, h.callbacks_nodup, nofun, h.fresh, h.added, h.timely⟩
    have hkept := h.kept v i hv
    rw [visitor_of_mutex hmutex, due_of_mutex hmutex, if_neg nofun, if_neg (by simp)] at hkept
    exact hkept
  · rename_i caller message v rest hmutex
    obtain ⟨i, hv, rfl⟩ := Option.map_eq_some_iff.mp ht
    obtain ⟨hnodup, hsub⟩ := h.visits _ _ _ _ hmutex
    have hkept := h.kept v i hv
    rw [visitor_of_mutex hmutex, if_neg nofun, due_of_mutex hmutex] at hkept
    have hvisit : ({ s.update v { i with references := i.references + 1 } [] with
        mutex := .posting caller message (some v) rest } : MessageDispatcher τ κ μ).mutex =
        .posting caller message (some v) rest := rfl
    have hlen : ([] : List (DispatchEvent τ κ μ)).length ≤ 1 := Nat.zero_le 1
    refine h.change hv hlen (by simp) (by simp) rfl rfl (fun _ _ => Iff.rfl)
      (fun _ hu => hu) h.callbacks_nodup ?_ ?_ ?_ ?_
    · intro caller' message' current' rest' hm
      obtain ⟨rfl, rfl, rfl, rfl⟩ := CallbacksMutex.posting.inj (hvisit.symm.trans hm)
      exact ⟨hnodup, hsub⟩
    · intro u hu
      rw [visitor_of_mutex hvisit, visitor_of_mutex hmutex,
        if_neg fun he => hu (Option.some.inj he).symm, if_neg nofun]
    · intro u hu c
      rw [due_of_mutex hvisit, due_of_mutex hmutex]
      simp [hu, Ne.symm hu]
    · rw [visitor_of_mutex hvisit, if_pos rfl, due_of_mutex hvisit]
      have hdue : (none = some v ∨ v ∈ v :: rest) ↔ (some v = some v ∨ v ∈ rest) := by simp
      rw [if_congr (and_congr_left' hdue) rfl rfl] at hkept
      exact hkept.visit (hsub v List.mem_cons_self)
  · rename_i caller message v rest hmutex
    obtain ⟨i, hv, hi⟩ := Option.bind_eq_some_iff.mp ht
    exact h.invokeAsync hv hmutex hi

/-- The dispatcher of an invoker takes a step of its own. -/
theorem Inv.contextStep (h : Inv supported s) {a : ContextStep (Caller τ)}
    (ht : s.contextStep v a = some t) : Inv supported t := by
  rw [MessageDispatcher.contextStep] at ht
  split at ht
  · cases ht
  rename_i i hv
  have hkept := h.kept v i hv
  -- the steps of the worker between the invocations
  have hworker : ∀ {a : ContextStep (Caller τ)}, (a = .wake ∨ a = .swapActions ∨ a = .unlock ∨
      a = .timersInvoked ∨ a = .actionReturned ∨ a = .endIteration) →
      ((i.context.step a).map fun c => s.update v { i with context := c } []) = some t →
      Inv supported t := by
    intro a ha ht'
    obtain ⟨c, hc, rfl⟩ := Option.map_eq_some_iff.mp ht'
    obtain ⟨haccepted, hlog, hdisposal, hmutex⟩ := SimpleContext.worker_step_frame ha hc
    have hfrom : a.FromOutside := by
      rcases ha with rfl | rfl | rfl | rfl | rfl | rfl <;> trivial
    have hmoved := hkept.move (hkept.inv.step a hc) (hkept.draining.step hkept.inv hfrom hc)
      haccepted hlog hmutex (fun hd => hkept.disposed (hdisposal ▸ hd))
      (fun hd => hdisposal.trans hd)
    exact h.update hv (Nat.zero_le 1) (by simp) (by simp) hmoved
  -- those of the destruction
  have hdispose : ∀ {a : ContextStep (Caller τ)},
      (a = .dispose ∨ a = .joinWorker ∨ a = .cancelActions) →
      (if i.references = 0 then
        (i.context.step a).map fun c => s.update v { i with context := c } []
      else none) = some t → Inv supported t := by
    intro a ha ht'
    rw [Option.ite_none_right_eq_some] at ht'
    obtain ⟨hreferences, ht'⟩ := ht'
    obtain ⟨c, hc, rfl⟩ := Option.map_eq_some_iff.mp ht'
    obtain ⟨haccepted, hlog, hdone, hmutex⟩ := hkept.draining.dispose_step_frame ha hc
    have hfrom : a.FromOutside := by rcases ha with rfl | rfl | rfl <;> trivial
    have hmoved := hkept.move (hkept.inv.step a hc) (hkept.draining.step hkept.inv hfrom hc)
      haccepted hlog hmutex (fun _ => hreferences) (fun hd => absurd hd hdone)
    exact h.update hv (Nat.zero_le 1) (by simp) (by simp) hmoved
  cases a with
  | wake => exact hworker (.inl rfl) ht
  | swapActions => exact hworker (.inr (.inl rfl)) ht
  | unlock => exact hworker (.inr (.inr (.inl rfl))) ht
  | timersInvoked => exact hworker (.inr (.inr (.inr (.inl rfl)))) ht
  | endIteration => exact hworker (.inr (.inr (.inr (.inr (.inr rfl))))) ht
  | actionReturned =>
    dsimp only at ht
    rw [Option.ite_none_left_eq_some] at ht
    exact hworker (.inr (.inr (.inr (.inr (.inl rfl))))) ht.2
  | nextAction =>
    obtain ⟨c, hc, rfl⟩ := Option.map_eq_some_iff.mp ht
    obtain ⟨m, hevents, hremoval, hdelivered⟩ := hkept.nextAction hc
    rw [hevents]
    refine h.update hv (Nat.le_refl 1) (by simp [about]) (fun _ _ _ _ => hremoval) ?_
    rw [List.foldl_cons, List.foldl_nil, Registration.observe, if_pos rfl]
    exact hdelivered
  | dispose => exact hdispose (.inl rfl) ht
  | joinWorker => exact hdispose (.inr (.inl rfl)) ht
  | cancelActions => exact hdispose (.inr (.inr rfl)) ht
  | _ => cases ht

/-- `removed_cb` goes out of scope. -/
theorem Inv.release (h : Inv supported s) (ht : s.release v = some t) : Inv supported t := by
  rw [MessageDispatcher.release] at ht
  split at ht
  · cases ht
  · rename_i i hv
    split at ht
    · rename_i caller hremoval
      obtain rfl := Option.some.inj ht
      exact h.update hv (Nat.zero_le 1) (by simp) (by simp) ((h.kept v i hv).release hremoval)
    · cases ht

/-- `remove_callback` returns. -/
theorem Inv.returnRemove (h : Inv supported s) (ht : s.returnRemove v = some t) :
    Inv supported t := by
  rw [MessageDispatcher.returnRemove] at ht
  split at ht
  · cases ht
  · rename_i i hv
    split at ht
    · rename_i caller hremoval
      rw [Option.ite_none_left_eq_some] at ht
      obtain ⟨hdone, ht⟩ := ht
      obtain rfl := Option.some.inj ht
      refine h.update hv (Nat.le_refl 1) (by simp [about]) (by simp) ?_
      rw [List.foldl_cons, List.foldl_nil, Registration.observe, if_pos rfl]
      exact (h.kept v i hv).returnRemove hremoval hdone
    · cases ht

/-- `post_message` takes the mutex. -/
theorem Inv.postMessage (h : Inv supported s) (hfree : s.mutex = .free) (cancel : Bool) :
    Inv supported (s.postMessage caller message cancel) := by
  rw [MessageDispatcher.postMessage]
  split
  · exact h
  · have hmutex : ({ s with
        mutex := .posting caller message none s.callbacks
        log := s.log ++ [.posted caller message] } : MessageDispatcher τ κ μ).mutex =
        .posting caller message none s.callbacks := rfl
    constructor
    · intro v i hv
      have hkept := h.kept v i hv
      rw [visitor_of_free hfree, due_of_free hfree] at hkept
      rw [visitor_of_mutex hmutex, if_neg nofun, due_of_mutex hmutex, registration_append rfl]
      have hdue : (none = some v ∨ v ∈ s.callbacks) ↔ v ∈ s.callbacks := by simp
      simp only [hdue]
      exact hkept.post
    · exact h.callbacks_lt
    · exact h.callbacks_nodup
    · intro caller' message' current' rest' hm
      obtain ⟨rfl, rfl, rfl, rfl⟩ := CallbacksMutex.posting.inj (hmutex.symm.trans hm)
      exact ⟨h.callbacks_nodup, fun _ hv => hv⟩
    · intro v hv
      rw [registration_append rfl, h.fresh v hv]
      rfl
    · intro v hv
      obtain ⟨callback, hadded⟩ := h.added v hv
      exact ⟨callback, List.mem_append_left _ hadded⟩
    · exact h.timely.append nofun

variable [DecidableEq κ]

/-- A callback is added. -/
theorem Inv.addCallback (h : Inv supported s) (hfree : s.mutex = .free) :
    Inv supported (s.addCallback callback).2 := by
  rw [MessageDispatcher.addCallback]
  split
  · exact h
  · dsimp only
    have habout : ∀ e ∈ [(.added s.invokers.length callback : DispatchEvent τ κ μ)],
        about e = some s.invokers.length := by simp [about]
    constructor
    · intro v i hv
      rw [List.getElem?_append] at hv
      split at hv
      · rename_i hlt
        have hkept := h.kept v i hv
        have hne : v ≠ s.invokers.length := Nat.ne_of_lt hlt
        rw [registration_append rfl, foldl_observe_of_ne habout hne]
        have hmem : v ∈ s.callbacks ++ [s.invokers.length] ↔ v ∈ s.callbacks := by simp [hne]
        rw [hmem]
        exact hkept
      · rename_i hge
        have hlen := (List.getElem?_eq_some_iff.mp hv).1
        rw [List.length_singleton] at hlen
        obtain rfl : v = s.invokers.length := by omega
        rw [Nat.sub_self, List.getElem?_cons_zero, Option.some.injEq] at hv
        subst hv
        rw [registration_append rfl, h.fresh _ (Nat.le_refl _)]
        change Kept _ _ _ (s.visitor _) (s.due supported _ _) _
        rw [visitor_of_free hfree, due_of_free hfree, List.foldl_cons, List.foldl_nil,
          Registration.observe, if_pos rfl]
        exact kept_new callback (List.mem_append_right _ List.mem_cons_self)
    · intro v hv
      rw [List.length_append, List.length_singleton]
      rcases List.mem_append.mp hv with hv | hv
      · exact Nat.lt_succ_of_lt (h.callbacks_lt v hv)
      · rw [List.mem_singleton] at hv
        omega
    · refine List.Nodup.append h.callbacks_nodup (List.nodup_singleton _) fun v hv hv' => ?_
      rw [List.mem_singleton] at hv'
      exact absurd (h.callbacks_lt v hv) (by omega)
    · intro caller message current rest hm
      rw [hfree] at hm
      cases hm
    · intro v hv
      rw [List.length_append, List.length_singleton] at hv
      rw [registration_append rfl, foldl_observe_of_ne habout (by omega)]
      exact h.fresh v (by omega)
    · intro v hv
      rw [List.length_append, List.length_singleton] at hv
      by_cases hlt : v < s.invokers.length
      · obtain ⟨c, hadded⟩ := h.added v hlt
        exact ⟨c, List.mem_append_left _ hadded⟩
      · obtain rfl : v = s.invokers.length := by omega
        exact ⟨callback, List.mem_append_right _ List.mem_cons_self⟩
    · exact h.timely.append nofun

/-- `remove_callback` takes the invoker out of `m_callbacks`. -/
theorem Inv.removeCallback (h : Inv supported s) (hfree : s.mutex = .free)
    (ht : s.removeCallback caller callback = some t) : Inv supported t := by
  rw [MessageDispatcher.removeCallback] at ht
  split at ht
  · exact Option.some.inj ht ▸ h
  · rename_i v hfind
    rw [Option.ite_none_left_eq_some] at ht
    obtain ⟨-, ht⟩ := ht
    obtain ⟨i, hv, rfl⟩ := Option.map_eq_some_iff.mp ht
    have hmem : v ∈ s.callbacks := List.mem_of_find?_eq_some hfind
    have hkept := h.kept v i hv
    rw [visitor_of_free hfree, due_of_free hfree] at hkept
    have hlen : [(.removed v : DispatchEvent τ κ μ)].length ≤ 1 := Nat.le_refl 1
    refine h.change hv hlen (by simp [about]) (by simp) rfl rfl
      (fun u hu => List.mem_erase_of_ne hu) (fun u hu => List.mem_of_mem_erase hu)
      (h.callbacks_nodup.erase v) (fun _ _ _ _ hm => ?_) (fun _ _ => rfl) (fun _ _ _ => rfl) ?_
    · have := hfree.symm.trans hm
      cases this
    · have hnot : v ∉ s.callbacks.erase v := h.callbacks_nodup.not_mem_erase
      change Kept _ _ _ (s.visitor _) (s.due supported _ _) _
      rw [visitor_of_free hfree, due_of_free hfree, List.foldl_cons, List.foldl_nil,
        Registration.observe, if_pos rfl]
      exact hkept.remove hmem hnot

/-- Every step keeps the invariant. -/
theorem Inv.step (h : Inv supported s) {a : DispatchStep τ κ μ}
    (ht : s.step supported a = some t) : Inv supported t := by
  cases a with
  | addCallback caller callback =>
    simp only [MessageDispatcher.step] at ht
    split at ht
    · rename_i hfree
      rw [Option.ite_none_right_eq_some] at ht
      exact Option.some.inj ht.2 ▸ h.addCallback hfree
    · cases ht
  | removeCallback caller callback =>
    simp only [MessageDispatcher.step] at ht
    split at ht
    · rename_i hfree
      rw [Option.ite_none_right_eq_some] at ht
      exact h.removeCallback hfree ht.2
    · cases ht
  | release v => exact h.release ht
  | returnRemove v => exact h.returnRemove ht
  | postMessage caller message cancel =>
    simp only [MessageDispatcher.step] at ht
    split at ht
    · rename_i hfree
      rw [Option.ite_none_right_eq_some] at ht
      exact Option.some.inj ht.2 ▸ h.postMessage hfree cancel
    · cases ht
  | post => exact h.post ht
  | context v a => exact h.contextStep ht

end Step

/-! ### Whole runs -/

theorem inv_init : Inv supported (init : MessageDispatcher τ κ μ) where
  kept _ _ hv := by cases hv
  callbacks_lt _ hv := by cases hv
  callbacks_nodup := List.nodup_nil
  visits := nofun
  fresh _ _ := rfl
  added _ hv := absurd hv (Nat.not_lt_zero _)
  timely _ _ _ _ _ hlog := by simp [init] at hlog

variable (supported) in
/-- What registrations get. The messages posted by others (`b = false`) and those posted by
the callback itself (`b = true`) are each delivered in the order in which they are posted; the
latter are delivered when the post is over. When `remove_callback` has returned, all that have
been posted have been delivered, and nothing is delivered from then on. -/
structure Delivers (s : MessageDispatcher τ κ μ) : Prop where
  inOrder : ∀ v b, (s.registration supported v).delivered.filter (own v · == b) <+:
    (s.registration supported v).posted.filter (own v · == b)
  atOnce : ∀ v, (∀ message current rest,
      s.mutex ≠ .posting (.invocation v) message current rest) →
    (s.registration supported v).delivered.filter (own v) =
      (s.registration supported v).posted.filter (own v)
  complete : ∀ v, .returned v ∈ s.log →
    (s.registration supported v).delivered.Perm (s.registration supported v).posted
  timely : ∀ l₁ l₂ v caller message, s.log = l₁ ++ .delivered v caller message :: l₂ →
    (∃ callback, .added v callback ∈ l₁) ∧ .returned v ∉ l₁

/-- An invoker gets its messages. -/
theorem Kept.inOrder {member : Prop} {vis : Option (Caller τ)} {waiting : List (Caller τ × μ)}
    {r : Registration τ κ μ} (h : Kept v i member vis waiting r) (b : Bool) :
    r.delivered.filter (own v · == b) <+: r.posted.filter (own v · == b) := by
  cases b with
  | false =>
    simp only [beq_false]
    rw [h.deliveredOthers, h.postedOthers]
    exact (List.take_prefix _ _).trans (List.prefix_append _ _)
  | true =>
    simp only [beq_true]
    rw [h.postedOwn]
    exact List.prefix_append _ _

theorem Kept.complete {member : Prop} {vis : Option (Caller τ)}
    {waiting : List (Caller τ × μ)} {r : Registration τ κ μ}
    (h : Kept v i member vis waiting r) (hreturned : r.returned = true) :
    r.delivered.Perm r.posted := by
  have hremoval := h.returned.mp hreturned
  have hnot : ¬member := fun hm => by
    have := (h.counted hm).1
    rw [hremoval] at this
    cases this
  have hnil := (h.left hnot).2.1
  have hexited := h.draining.joined (.inr (h.done hremoval))
  have hlog := congrArg List.length (h.draining.drained h.inv hexited)
  rw [List.length_map, List.length_range] at hlog
  have hothers : r.delivered.filter (!own v ·) = r.posted.filter (!own v ·) := by
    rw [h.deliveredOthers, h.postedOthers, hnil, hlog, ← h.length, List.take_length]
    simp
  have hown : r.delivered.filter (own v) = r.posted.filter (own v) := by
    rw [h.postedOwn, hnil]
    simp
  have hsplit := List.filter_append_perm (own v) r.delivered
  rw [hothers, hown] at hsplit
  exact hsplit.symm.trans (List.filter_append_perm (own v) r.posted)

theorem Inv.delivers (h : Inv supported s) : Delivers supported s := by
  have hcases : ∀ v, s.registration supported v = .empty ∨
      ∃ i, s.invokers[v]? = some i ∧ Kept v i (v ∈ s.callbacks) (s.visitor v)
        (s.due supported v i.callback) (s.registration supported v) := by
    intro v
    rcases Nat.lt_or_ge v s.invokers.length with hlt | hge
    · have hv := List.getElem?_eq_getElem hlt
      exact .inr ⟨_, hv, h.kept v _ hv⟩
    · exact .inl (h.fresh v hge)
  constructor
  · intro v b
    rcases hcases v with hempty | ⟨i, -, hkept⟩
    · rw [hempty]
      exact List.nil_prefix
    · exact hkept.inOrder b
  · intro v hposting
    rcases hcases v with hempty | ⟨i, -, hkept⟩
    · rw [hempty]
      rfl
    · rw [hkept.postedOwn]
      have hdue : (s.due supported v i.callback).filter (own v) = [] := by
        rw [List.filter_eq_nil_iff]
        intro p hp
        rw [due] at hp
        split at hp
        · cases hp
        · rename_i caller message current rest hmutex
          split at hp
          · obtain rfl := List.mem_singleton.mp hp
            rw [own, decide_eq_true_iff]
            rintro rfl
            exact hposting _ _ _ hmutex
          · cases hp
      rw [hdue, List.append_nil]
  · intro v hreturned
    rcases hcases v with hempty | ⟨i, -, hkept⟩
    · rw [hempty]
      exact .refl _
    · exact hkept.complete (registration_returned_iff.mpr hreturned)
  · exact h.timely

variable (supported) in
/-- **Delivery.** In every state of every run, each registration has got what it should. -/
theorem always_delivers [DecidableEq κ] (l : List (DispatchStep τ κ μ)) :
    Always (MessageDispatcher.step · supported) (Delivers supported) init l := by
  intro l' t _ ht
  exact (run_invariant ht (fun _ _ _ hs hstep => Inv.step hs hstep) inv_init).delivers

/-! ### Where the order of posting is not kept -/

/-- A callback with a message waiting posts a third message itself: it gets this one at once,
before the second. -/
def postInCallback : List (DispatchStep ℕ Unit ℕ) :=
  [.addCallback (.thread 0) (),
    .postMessage (.thread 0) 1 false, .post, .post, .post, .post,
    .postMessage (.thread 0) 2 false, .post, .post, .post, .post,
    .context 0 .wake, .context 0 .swapActions, .context 0 .unlock, .context 0 .timersInvoked,
    .context 0 .nextAction, .postMessage (.invocation 0) 3 false, .post, .post, .post,
    .context 0 .actionReturned, .context 0 .nextAction]

/-- While one thread removes the callback, another adds it and removes it again: this
`remove_callback` returns true, and then the message of the first registration is delivered. -/
def removeTwice : List (DispatchStep ℕ Unit ℕ) :=
  [.addCallback (.thread 0) (), .postMessage (.thread 0) 1 false, .post, .post, .post, .post,
    .removeCallback (.thread 0) (), .addCallback (.thread 1) (),
    .removeCallback (.thread 1) (), .release 1, .context 1 .dispose, .context 1 .wake,
    .context 1 .swapActions, .context 1 .unlock, .context 1 .timersInvoked,
    .context 1 .endIteration, .context 1 .joinWorker, .context 1 .cancelActions,
    .returnRemove 1, .context 0 .wake, .context 0 .swapActions, .context 0 .unlock,
    .context 0 .timersInvoked, .context 0 .nextAction]

theorem not_in_posting_order :
    (∃ s, run (MessageDispatcher.step · fun _ _ => true) init postInCallback = some s ∧
      (s.registration (fun _ _ => true) 0).posted.map Prod.snd = [1, 2, 3] ∧
      (s.registration (fun _ _ => true) 0).delivered.map Prod.snd = [1, 3, 2] ∧
      ¬(s.registration (fun _ _ => true) 0).delivered <+:
        (s.registration (fun _ _ => true) 0).posted) ∧
    ∃ s, run (MessageDispatcher.step · fun _ _ => true) init removeTwice = some s ∧
      s.log = [.added 0 (), .posted (.thread 0) 1, .removed 0, .added 1 (), .removed 1,
        .returned 1, .delivered 0 (.thread 0) 1] :=
  ⟨⟨_, rfl, rfl, rfl, by decide⟩, _, rfl, rfl⟩

end MessageDispatcher

end UtilityFramework
