import UtilityFramework.Utils.ContextDrain

/-!
# Bounded delivery of frames

`video_source_base` raises frames to its frame callbacks. Each callback has a
`callback_invoker` with a dispatcher of its own, and a counter `m_pending_frames_count` that
begins at the number of frames that may be pending. `invoke_async` decrements it; if it has
come to zero, the frame is dropped and the counter incremented again, and otherwise the frame
is handed to the dispatcher, on whose thread a guard increments the counter when the callback
has returned or thrown.

`raise_frame` is protected. It is called on threads of the source, so the dispatchers always
queue the frames, and it visits the invokers under the mutex of `m_frame_callbacks`. Every
atomic operation on a counter is a step of its own.
-/

namespace UtilityFramework

open Transition

/-- `callback_invoker`; `context` is `m_incvocation_thread`, which is created by the first
frame. The action number `n` of the dispatcher delivers the frame number `n` of `frames`. -/
structure FrameInvoker (κ φ : Type*) where
  callback : κ
  context : Option (SimpleContext Unit)
  pendingFramesCount : UInt64
  frames : List φ

/-- The mutex of `m_frame_callbacks`: who holds it across steps is a thread in `raise_frame`,
with the invoker for which it has decremented the counter, and what it has read there, and the
invokers it has still to visit. -/
inductive FrameMutex (φ : Type*)
  | free
  | raising (frame : φ) (current : Option (ℕ × UInt64)) (rest : List ℕ)

inductive FrameEvent (κ φ : Type*)
  | added (invoker : ℕ) (callback : κ)
  | raised (frame : φ)
  | dropped (invoker : ℕ) (frame : φ)
  | queued (invoker : ℕ) (frame : φ)
  | delivered (invoker : ℕ) (frame : φ)
  | completed (invoker : ℕ)

/-- What the next pending action delivers, when it is invoked. -/
def FrameInvoker.nextDelivery {κ φ : Type*} (v : ℕ) (i : FrameInvoker κ φ)
    (c : SimpleContext Unit) : List (FrameEvent κ φ) :=
  match c.pendingActions with
  | [] => []
  | action :: _ =>
    if c.stackStopper then [] else (i.frames[action]?.map (.delivered v)).toList

/-- `video_source_base`. -/
structure VideoSource (κ φ : Type*) where
  maxPendingFrames : UInt64
  invokers : List (FrameInvoker κ φ)
  mutex : FrameMutex φ
  log : List (FrameEvent κ φ)

/-- The steps. `raise` lets the thread in `raise_frame` go on; `complete` is the end of a call
of a callback, which returns or throws. -/
inductive SourceStep (κ φ : Type*)
  | addFrameCallback (callback : κ)
  | raiseFrame (frame : φ) (cancel : Bool)
  | raise
  | context (invoker : ℕ) (step : ContextStep Unit)
  | complete (invoker : ℕ) (threw : Bool)

namespace VideoSource

variable {κ φ : Type*}

/-- The constructor, which throws for 0. -/
def construct (maxPendingFrames : UInt64) : Option (VideoSource κ φ) :=
  if maxPendingFrames = 0 then none
  else some {
    maxPendingFrames := maxPendingFrames
    invokers := []
    mutex := .free
    log := [] }

variable (s : VideoSource κ φ)

/-- Invoker number `v` changes, and what happens is recorded. -/
def update (v : ℕ) (i : FrameInvoker κ φ) (events : List (FrameEvent κ φ)) :
    VideoSource κ φ :=
  { s with invokers := s.invokers.set v i, log := s.log ++ events }

def newInvoker (callback : κ) : FrameInvoker κ φ where
  callback := callback
  context := none
  pendingFramesCount := s.maxPendingFrames
  frames := []

def addFrameCallback [DecidableEq κ] (callback : κ) : Bool × VideoSource κ φ :=
  if s.invokers.any fun i => i.callback = callback then (false, s)
  else (true, { s with
    invokers := s.invokers ++ [s.newInvoker callback]
    log := s.log ++ [.added s.invokers.length callback] })

/-- `raise_frame` with `async` up to its loop: `on_frame_raising` says whether it is
cancelled. -/
def raiseFrame (frame : φ) (cancel : Bool) : VideoSource κ φ :=
  if cancel then s
  else { s with
    mutex := .raising frame none (List.range s.invokers.length)
    log := s.log ++ [.raised frame] }

/-- `invoke_async` up to the decrement, whose result decides whether the frame is dropped. -/
def decrement (v : ℕ) (i : FrameInvoker κ φ) (frame : φ) (rest : List ℕ) : VideoSource κ φ :=
  let remaining := i.pendingFramesCount - 1
  { s.update v { i with
      context := some (i.context.getD (.init false false))
      pendingFramesCount := remaining } (if remaining = 0 then [.dropped v frame] else []) with
    mutex := .raising frame (some (v, remaining)) rest }

/-- `invoke_async` behind the decrement. -/
def invokeAsync (v : ℕ) (i : FrameInvoker κ φ) (remaining : UInt64) (frame : φ)
    (rest : List ℕ) : Option (VideoSource κ φ) :=
  if remaining = 0 then
    some { s.update v { i with pendingFramesCount := i.pendingFramesCount + 1 } [] with
      mutex := .raising frame none rest }
  else
    match i.context with
    | none => none
    | some c =>
      match c.mutex with
      | .adding _ => (c.step (.pushAction ())).map fun c' =>
        { s.update v { i with
            context := some c'
            frames := i.frames ++ [frame] } [.queued v frame] with
          mutex := .raising frame none rest }
      | _ =>
        if c.running then
          (c.step (.addAction ())).map fun c' => s.update v { i with context := some c' } []
        else some { s with mutex := .free }

/-- The thread in `raise_frame` goes on. -/
def raise : Option (VideoSource κ φ) :=
  match s.mutex with
  | .free => none
  | .raising _ none [] => some { s with mutex := .free }
  | .raising frame none (v :: rest) =>
    s.invokers[v]?.map fun i => s.decrement v i frame rest
  | .raising frame (some (v, remaining)) rest =>
    s.invokers[v]?.bind fun i => s.invokeAsync v i remaining frame rest

/-- The worker of the dispatcher of an invoker. An action that is invoked delivers its
frame. -/
def contextStep (v : ℕ) (step : ContextStep Unit) : Option (VideoSource κ φ) :=
  match s.invokers[v]? with
  | none => none
  | some i =>
    match i.context, step with
    | some c, .wake | some c, .swapActions | some c, .unlock | some c, .timersInvoked
    | some c, .endIteration =>
      (c.step step).map fun c' => s.update v { i with context := some c' } []
    | some c, .nextAction =>
      (c.step step).map fun c' =>
        s.update v { i with context := some c' } (i.nextDelivery v c)
    | _, _ => none

/-- The callback has returned or thrown (`invoke` catches everything): the guard increments
the counter and the action returns. -/
def complete (v : ℕ) : Option (VideoSource κ φ) :=
  match s.invokers[v]? with
  | none => none
  | some i =>
    match i.context with
    | none => none
    | some c => (c.step .actionReturned).map fun c' =>
      s.update v { i with
        context := some c'
        pendingFramesCount := i.pendingFramesCount + 1 } [.completed v]

/-- One step. `none` says that it cannot be taken. -/
def step [DecidableEq κ] (s : VideoSource κ φ) : SourceStep κ φ → Option (VideoSource κ φ)
  | .addFrameCallback callback =>
    match s.mutex with
    | .free => some (s.addFrameCallback callback).2
    | _ => none
  | .raiseFrame frame cancel =>
    match s.mutex with
    | .free => some (s.raiseFrame frame cancel)
    | _ => none
  | .raise => s.raise
  | .context v step => s.contextStep v step
  | .complete v _ => s.complete v

end VideoSource

/-! ### What the log says about a callback -/

/-- The frames raised while the callback is registered, those delivered to it, how many have
been handed to its dispatcher and how many calls are completed, and for each frame dropped how
many were pending or running. -/
structure FrameRecord (φ : Type*) where
  registered : Bool
  raised : List φ
  delivered : List φ
  queued : ℕ
  completed : ℕ
  drops : List ℕ

namespace FrameRecord

variable {κ φ : Type*}

def empty : FrameRecord φ := ⟨false, [], [], 0, 0, []⟩

/-- The frames pending or running. -/
def pending (r : FrameRecord φ) : ℕ := r.queued - r.completed

/-- What an event says about invoker number `v`. -/
def observe (v : ℕ) (r : FrameRecord φ) : FrameEvent κ φ → FrameRecord φ
  | .added u _ => if u = v then { r with registered := true } else r
  | .raised frame => if r.registered then { r with raised := r.raised ++ [frame] } else r
  | .dropped u _ => if u = v then { r with drops := r.drops ++ [r.pending] } else r
  | .queued u _ => if u = v then { r with queued := r.queued + 1 } else r
  | .delivered u frame =>
    if u = v then { r with delivered := r.delivered ++ [frame] } else r
  | .completed u => if u = v then { r with completed := r.completed + 1 } else r

end FrameRecord

/-- Invoker number `v` in a state. -/
def VideoSource.record {κ φ : Type*} (s : VideoSource κ φ) (v : ℕ) : FrameRecord φ :=
  s.log.foldl (FrameRecord.observe v) .empty

namespace VideoSource

variable {κ φ : Type*}

/-- Frames are delivered in order and at most once, at most `m_max_pending_frames` are pending
or running, and a frame is dropped only when as many are. -/
structure Bounded (s : VideoSource κ φ) : Prop where
  inOrder : ∀ v, ((s.record v).delivered).Sublist (s.record v).raised
  atMost : ∀ v, (s.record v).pending ≤ s.maxPendingFrames.toNat
  full : ∀ v, ∀ n ∈ (s.record v).drops, s.maxPendingFrames.toNat ≤ n

/-- A frame does not come to a callback for which `m_max_pending_frames - 1` are pending or
running. -/
def Spare (s : VideoSource κ φ) : SourceStep κ φ → Prop
  | .raise =>
    match s.mutex with
    | .raising _ none (v :: _) => (s.record v).pending + 1 < s.maxPendingFrames.toNat
    | _ => True
  | _ => True

instance : ∀ (s : VideoSource κ φ) (a : SourceStep κ φ), Decidable (Spare s a)
  | ⟨_, _, .raising _ none (_ :: _), _⟩, .raise => inferInstanceAs (Decidable (_ < _))
  | ⟨_, _, .raising _ none [], _⟩, .raise => .isTrue trivial
  | ⟨_, _, .raising _ (some _) _, _⟩, .raise => .isTrue trivial
  | ⟨_, _, .free, _⟩, .raise => .isTrue trivial
  | _, .addFrameCallback _ => .isTrue trivial
  | _, .raiseFrame _ _ => .isTrue trivial
  | _, .context _ _ => .isTrue trivial
  | _, .complete _ _ => .isTrue trivial

/-! ### Where the frames are -/

/-- The dispatcher of an invoker, which is idle before the first frame. -/
def dispatcher (i : FrameInvoker κ φ) : SimpleContext Unit := i.context.getD (.init false false)

/-- The worker is in a call of the callback. -/
def inCall (c : SimpleContext Unit) : Bool :=
  match c.worker with
  | .invoking _ => true
  | _ => false

/-- What `raise_frame` has read in the counter of invoker `v`, while it visits it. -/
def transit (s : VideoSource κ φ) (v : ℕ) : Option UInt64 :=
  match s.mutex with
  | .raising _ (some (u, remaining)) _ => if u = v then some remaining else none
  | _ => none

/-- The frame that `raise_frame` has still to hand to invoker `v`. -/
def due (s : VideoSource κ φ) (v : ℕ) : List φ :=
  match s.mutex with
  | .free => []
  | .raising frame current rest =>
    if (current.any fun p => p.1 = v ∧ p.2 ≠ 0) ∨ v ∈ rest then [frame] else []

/-- Invoker `v` against what the log says about it; `m` is `m_max_pending_frames`. At most
`m - 1` frames are pending or running. -/
structure Kept (m : UInt64) (i : FrameInvoker κ φ) (transit : Option UInt64) (due : List φ)
    (r : FrameRecord φ) : Prop where
  inv : (dispatcher i).Inv
  draining : (dispatcher i).Draining
  running : (dispatcher i).disposal = .none
  started : transit ≠ none → i.context ≠ none
  length : i.frames.length = (dispatcher i).accepted
  delivered : r.delivered = i.frames.take (dispatcher i).log.length
  completed : r.completed + (inCall (dispatcher i)).toNat = (dispatcher i).log.length
  queued : r.queued = i.frames.length
  registered : r.registered = true
  raised : (i.frames ++ due).Sublist r.raised
  count : i.pendingFramesCount.toNat + r.pending + transit.toList.length = m.toNat
  spare : r.pending < m.toNat
  admitted : ∀ remaining, transit = some remaining → remaining ≠ 0 → r.pending + 1 < m.toNat
  adding : ∀ u, (dispatcher i).mutex = .adding u →
    ∃ remaining, transit = some remaining ∧ remaining ≠ 0

structure Inv (s : VideoSource κ φ) : Prop where
  kept : ∀ v i, s.invokers[v]? = some i →
    Kept s.maxPendingFrames i (s.transit v) (s.due v) (s.record v)
  visits : ∀ frame current rest, s.mutex = .raising frame current rest →
    (current.toList.map Prod.fst ++ rest).Nodup ∧
      ∀ v ∈ current.toList.map Prod.fst ++ rest, v < s.invokers.length
  fresh : ∀ v, s.invokers.length ≤ v → s.record v = .empty
  positive : 0 < s.maxPendingFrames.toNat

variable {s t : VideoSource κ φ} {v u : ℕ} {i i' : FrameInvoker κ φ}

/-- The invoker that an event is about. -/
def about : FrameEvent κ φ → Option ℕ
  | .added v _ | .dropped v _ | .queued v _ | .delivered v _ | .completed v => some v
  | .raised _ => none

theorem record_append {log : List (FrameEvent κ φ)} (h : t.log = s.log ++ log) (v : ℕ) :
    t.record v = log.foldl (FrameRecord.observe v) (s.record v) := by
  rw [record, h, List.foldl_append]
  rfl

/-- Events about one invoker say nothing about another. -/
theorem foldl_observe_of_ne {log : List (FrameEvent κ φ)} (h : ∀ e ∈ log, about e = some v)
    (huv : u ≠ v) (r : FrameRecord φ) : log.foldl (FrameRecord.observe u) r = r := by
  refine Transition.foldl_eq_self (fun e hmem r => ?_) r
  have he := h e hmem
  cases e <;> simp only [about, Option.some.injEq] at he
  case raised => cases he
  all_goals
    subst he
    exact if_neg huv.symm

/-- A step that changes invoker `v` only, and records only what happens to it. -/
theorem Inv.change (h : Inv s) (hv : s.invokers[v]? = some i)
    {events : List (FrameEvent κ φ)} (habout : ∀ e ∈ events, about e = some v)
    (hinvokers : t.invokers = s.invokers.set v i') (hlog : t.log = s.log ++ events)
    (hmax : t.maxPendingFrames = s.maxPendingFrames)
    (hvisits : ∀ frame current rest, t.mutex = .raising frame current rest →
      (current.toList.map Prod.fst ++ rest).Nodup ∧
        ∀ v ∈ current.toList.map Prod.fst ++ rest, v < s.invokers.length)
    (htransit : ∀ u, u ≠ v → t.transit u = s.transit u)
    (hdue : ∀ u, u ≠ v → t.due u = s.due u)
    (hkept : Kept s.maxPendingFrames i' (t.transit v) (t.due v)
      (events.foldl (FrameRecord.observe v) (s.record v))) : Inv t := by
  have hvlt : v < s.invokers.length := (List.getElem?_eq_some_iff.mp hv).1
  have hlength : t.invokers.length = s.invokers.length := by rw [hinvokers, List.length_set]
  have hother : ∀ u, u ≠ v → t.record u = s.record u := by
    intro u hu
    rw [record_append hlog, foldl_observe_of_ne habout hu]
  constructor
  · intro u j hu
    rw [hinvokers] at hu
    rw [hmax]
    by_cases huv : u = v
    · subst huv
      rw [List.getElem?_set_self hvlt, Option.some.injEq] at hu
      subst hu
      rw [record_append hlog]
      exact hkept
    · rw [List.getElem?_set_ne (Ne.symm huv)] at hu
      rw [htransit u huv, hdue u huv, hother u huv]
      exact h.kept u j hu
  · rw [hlength]
    exact hvisits
  · intro u hu
    rw [hlength] at hu
    rw [hother u (by omega)]
    exact h.fresh u hu
  · exact hmax ▸ h.positive

/-- A step of an invoker at which nothing is raised. -/
theorem Inv.update (h : Inv s) (hv : s.invokers[v]? = some i)
    (events : List (FrameEvent κ φ)) (habout : ∀ e ∈ events, about e = some v)
    (hkept : Kept s.maxPendingFrames i' (s.transit v) (s.due v)
      (events.foldl (FrameRecord.observe v) (s.record v))) : Inv (s.update v i' events) :=
  h.change hv habout rfl rfl rfl h.visits (fun _ _ => rfl) (fun _ _ => rfl) hkept

section Kept

variable {m : UInt64} {tr : Option UInt64} {waiting : List φ} {r : FrameRecord φ}
  {c : SimpleContext Unit} {frame : φ} {remaining : UInt64}

theorem Kept.completed_le (h : Kept m i tr waiting r) : r.completed ≤ r.queued := by
  obtain ⟨-, hle, -⟩ := h.draining.placed h.inv
  have := h.completed
  rw [h.queued, h.length]
  omega

/-- The dispatcher moves on; no frame is handed over, delivered or completed. -/
theorem Kept.move (h : Kept m i tr waiting r) (hinv : c.Inv) (hdraining : c.Draining)
    (haccepted : c.accepted = (dispatcher i).accepted) (hlog : c.log = (dispatcher i).log)
    (hdisposal : c.disposal = (dispatcher i).disposal)
    (hcall : inCall c = inCall (dispatcher i))
    (hmutex : ∀ u, c.mutex = .adding u → (dispatcher i).mutex = .adding u) :
    Kept m { i with context := some c } tr waiting r :=
  { h with
    inv := hinv
    draining := hdraining
    running := hdisposal.trans h.running
    started := fun _ => nofun
    length := h.length.trans haccepted.symm
    delivered := h.delivered.trans (by rw [← hlog]; rfl)
    completed := (congrArg (fun b : Bool => r.completed + b.toNat) hcall).trans
      (h.completed.trans (congrArg List.length hlog.symm))
    adding := fun u hu => h.adding u (hmutex u hu) }

/-- The dispatcher invokes the next action, which delivers the next frame. -/
theorem Kept.nextAction (h : Kept m i tr waiting r)
    (hc : (dispatcher i).step .nextAction = some c) :
    ∃ frame, i.nextDelivery v (dispatcher i) = [.delivered v frame] ∧
      Kept m { i with context := some c } tr waiting
        { r with delivered := r.delivered ++ [frame] } := by
  have hinv := h.inv.step .nextAction hc
  have hdraining := h.draining.nextAction hc
  obtain ⟨stop, action, pending, hworker, hpending, rfl⟩ := h.draining.nextAction_of_step hc
  obtain ⟨rfl, hlt⟩ := h.draining.next h.inv hpending
  rw [← h.length] at hlt
  refine ⟨i.frames[(dispatcher i).log.length], ?_, { h with
    inv := hinv
    draining := hdraining
    running := h.running
    started := fun _ => by simp
    length := h.length
    delivered := ?_
    completed := ?_
    adding := h.adding }⟩
  · simp [FrameInvoker.nextDelivery, hpending, h.draining.stackStopper,
      List.getElem?_eq_getElem hlt]
  · simp [dispatcher, h.delivered, List.take_add_one]
  · have hcall : inCall (dispatcher i) = false := by rw [inCall, hworker]
    have hcompleted := h.completed
    rw [hcall] at hcompleted
    simp only [dispatcher, Option.getD_some, inCall, List.length_append, List.length_singleton]
    simp only [dispatcher] at hcompleted
    rw [← hcompleted]
    rfl

/-- A call of the callback is completed. -/
theorem Kept.complete (h : Kept m i tr waiting r)
    (hc : (dispatcher i).step .actionReturned = some c) :
    Kept m { i with
      context := some c
      pendingFramesCount := i.pendingFramesCount + 1 } tr waiting
        { r with completed := r.completed + 1 } := by
  have hinv := h.inv.step .actionReturned hc
  have hdraining := h.draining.passOn (.inr (.inl rfl)) hc
  have hle := h.completed_le
  have hcount := h.count
  have hspare := h.spare
  have hm := m.toNat_lt
  obtain ⟨-, hplaced, -⟩ := h.draining.placed h.inv
  rw [← h.length, ← h.queued] at hplaced
  obtain ⟨stop, hworker, rfl⟩ := SimpleContext.actionReturned_of_step hc
  have hcall : inCall (dispatcher i) = true := by rw [inCall, hworker]
  have hcompleted := h.completed
  rw [hcall] at hcompleted
  -- one of the frames handed over is running
  have hpending : { r with completed := r.completed + 1 }.pending + 1 = r.pending := by
    simp only [FrameRecord.pending]
    simp only [Bool.toNat_true] at hcompleted
    omega
  refine { h with
    inv := hinv
    draining := hdraining
    running := h.running
    started := fun _ => by simp
    length := h.length
    delivered := h.delivered
    completed := hcompleted
    count := ?_
    spare := ?_
    admitted := ?_
    adding := h.adding }
  · rw [UInt64.toNat_add, UInt64.toNat_one, Nat.mod_eq_of_lt (by omega)]
    omega
  · omega
  · intro remaining htr hne
    have := h.admitted remaining htr hne
    omega

/-- `raise_frame` comes to the invoker. The frame is dropped if the counter comes to zero. -/
theorem Kept.decrement (h : Kept m i none [frame] r) :
    i.pendingFramesCount - 1 = 0 ∧ r.pending + 1 = m.toNat ∧
        Kept m { i with
          context := some (dispatcher i)
          pendingFramesCount := i.pendingFramesCount - 1 } (some (i.pendingFramesCount - 1)) []
          { r with drops := r.drops ++ [r.pending] } ∨
      i.pendingFramesCount - 1 ≠ 0 ∧ r.pending + 1 < m.toNat ∧
        Kept m { i with
          context := some (dispatcher i)
          pendingFramesCount := i.pendingFramesCount - 1 } (some (i.pendingFramesCount - 1))
          [frame] r := by
  have hcount := h.count
  have hspare := h.spare
  have hm := m.toNat_lt
  simp only [Option.toList_none, List.length_nil, Nat.add_zero] at hcount
  have hone : (1 : UInt64) ≤ i.pendingFramesCount := by
    rw [UInt64.le_iff_toNat_le, UInt64.toNat_one]
    omega
  have hsub : (i.pendingFramesCount - 1).toNat = i.pendingFramesCount.toNat - 1 := by
    rw [UInt64.toNat_sub_of_le _ _ hone, UInt64.toNat_one]
  have hadding : ∀ u, (dispatcher i).mutex ≠ .adding u := fun u hu => by
    obtain ⟨remaining, hnone, -⟩ := h.adding u hu
    cases hnone
  by_cases hzero : i.pendingFramesCount - 1 = 0
  · have hnat : i.pendingFramesCount.toNat - 1 = 0 := by rw [← hsub, hzero]; rfl
    refine .inl ⟨hzero, by omega, { h with
      started := fun _ => nofun
      raised := ?_
      count := ?_
      admitted := ?_
      adding := fun u hu => absurd hu (hadding u) }⟩
    · exact List.Sublist.trans (by simp) h.raised
    · rw [hsub]
      simp only [Option.toList_some, List.length_singleton, FrameRecord.pending] at hcount hspare ⊢
      omega
    · intro remaining htr hne
      exact absurd hzero (Option.some.inj htr ▸ hne)
  · have hnat : i.pendingFramesCount.toNat - 1 ≠ 0 := fun hc =>
      hzero (UInt64.toNat_inj.mp (hsub.trans hc))
    refine .inr ⟨hzero, by omega, { h with
      started := fun _ => nofun
      count := ?_
      admitted := fun remaining htr hne => by omega
      adding := fun u hu => absurd hu (hadding u) }⟩
    rw [hsub]
    simp only [Option.toList_some, List.length_singleton]
    omega

/-- A frame has been dropped, and the counter is restored. -/
theorem Kept.restore (h : Kept m i (some 0) waiting r) (hwaiting : waiting = []) :
    Kept m { i with pendingFramesCount := i.pendingFramesCount + 1 } none [] r := by
  subst hwaiting
  have hcount := h.count
  have hm := m.toNat_lt
  simp only [Option.toList_some, List.length_singleton] at hcount
  exact { h with
    started := fun hne => absurd rfl hne
    count := by
      rw [UInt64.toNat_add, UInt64.toNat_one, Nat.mod_eq_of_lt (by omega)]
      simp only [Option.toList_none, List.length_nil]
      omega
    admitted := nofun
    adding := fun u hu => by
      obtain ⟨remaining, hzero, hne⟩ := h.adding u hu
      exact absurd (Option.some.inj hzero).symm hne }

/-- `raise_frame` takes the mutex of the dispatcher. -/
theorem Kept.addAction (h : Kept m i (some remaining) [frame] r) (hne : remaining ≠ 0)
    (hc : (dispatcher i).step (.addAction ()) = some c) :
    Kept m { i with context := some c } (some remaining) [frame] r := by
  have hinv := h.inv.step _ hc
  have hdraining := h.draining.add (.inl hc)
  obtain ⟨-, ⟨-, rfl⟩ | ⟨-, rfl⟩⟩ := SimpleContext.addAction_of_step hc
  · exact { h with
      inv := hinv
      draining := hdraining
      running := h.running
      started := fun _ => by simp
      length := h.length
      delivered := h.delivered
      completed := h.completed
      adding := fun _ _ => ⟨remaining, rfl, hne⟩ }
  · exact { h with started := fun _ => by simp }

/-- It hands over the frame. -/
theorem Kept.pushAction (h : Kept m i (some remaining) [frame] r) (hne : remaining ≠ 0)
    (hc : (dispatcher i).step (.pushAction ()) = some c) :
    Kept m { i with
      context := some c
      frames := i.frames ++ [frame] } none [] { r with queued := r.queued + 1 } := by
  have hinv := h.inv.step _ hc
  have hdraining := h.draining.add (.inr hc)
  have hle := h.completed_le
  have hcount := h.count
  have hadmitted := h.admitted remaining rfl hne
  simp only [Option.toList_some, List.length_singleton, FrameRecord.pending] at hcount hadmitted
  obtain ⟨-, hplaced, -⟩ := h.draining.placed h.inv
  rw [← h.length] at hplaced
  obtain ⟨-, rfl⟩ := SimpleContext.pushAction_of_step hc
  refine { h with
    inv := hinv
    draining := hdraining
    running := h.running
    started := fun _ => by simp
    length := ?_
    delivered := ?_
    completed := h.completed
    queued := ?_
    raised := ?_
    count := ?_
    spare := ?_
    admitted := by simp
    adding := fun u hu => by cases hu }
  · rw [List.length_append, h.length]
    rfl
  · exact h.delivered.trans (List.take_append_of_le_length hplaced).symm
  · rw [List.length_append, h.queued]
    rfl
  · rw [List.append_nil]
    exact h.raised
  · simp only [Option.toList_none, List.length_nil, FrameRecord.pending]
    omega
  · simp only [FrameRecord.pending]
    omega

/-- A frame is raised. -/
theorem Kept.raise (h : Kept m i none [] r) :
    Kept m i none [frame] (FrameRecord.observe v r (.raised frame : FrameEvent κ φ)) := by
  rw [FrameRecord.observe, if_pos h.registered]
  exact { h with
    raised := by
      have := h.raised
      rw [List.append_nil] at this
      exact this.append_right [frame] }

/-- A callback is added. -/
theorem kept_new (hm : 0 < s.maxPendingFrames.toNat) (callback : κ) :
    Kept s.maxPendingFrames (s.newInvoker callback) none []
      { (FrameRecord.empty : FrameRecord φ) with registered := true } where
  inv := SimpleContext.inv_init false false
  draining := SimpleContext.draining_init
  running := rfl
  started hne := absurd rfl hne
  length := rfl
  delivered := rfl
  completed := rfl
  queued := rfl
  registered := rfl
  raised := List.nil_sublist _
  count := rfl
  spare := hm
  admitted := nofun
  adding := nofun

end Kept

/-! ### What the steps keep -/

section Step

variable {frame : φ} {current : Option (ℕ × UInt64)} {rest : List ℕ} {remaining : UInt64}

theorem transit_of_mutex (h : s.mutex = .raising frame current rest) (v : ℕ) :
    s.transit v = current.bind fun p => if p.1 = v then some p.2 else none := by
  rw [transit, h]
  cases current <;> rfl

theorem due_of_mutex (h : s.mutex = .raising frame current rest) (v : ℕ) :
    s.due v = if (current.any fun p => p.1 = v ∧ p.2 ≠ 0) ∨ v ∈ rest then [frame] else [] := by
  rw [due, h]

theorem transit_of_free (h : s.mutex = .free) (v : ℕ) : s.transit v = none := by
  rw [transit, h]

theorem due_of_free (h : s.mutex = .free) (v : ℕ) : s.due v = [] := by
  rw [due, h]

/-- The invoker that is visited has the frame to come, unless it has been dropped. -/
theorem Inv.visited (h : Inv s) (hmutex : s.mutex = .raising frame (some (v, remaining)) rest)
    (hv : s.invokers[v]? = some i) :
    Kept s.maxPendingFrames i (some remaining) (if remaining = 0 then [] else [frame])
      (s.record v) := by
  have hkept := h.kept v i hv
  have hrest : v ∉ rest := (List.nodup_cons.mp (h.visits _ _ _ hmutex).1).1
  rw [transit_of_mutex hmutex, due_of_mutex hmutex, Option.bind_some, if_pos rfl] at hkept
  by_cases hzero : remaining = 0
  · rw [if_neg (by simp [hzero, hrest])] at hkept
    rwa [if_pos hzero]
  · rw [if_pos (by simp [hzero])] at hkept
    rwa [if_neg hzero]

/-- The visit to an invoker ends. -/
theorem Inv.leave (h : Inv s) (hmutex : s.mutex = .raising frame (some (v, remaining)) rest)
    (hv : s.invokers[v]? = some i) (events : List (FrameEvent κ φ))
    (habout : ∀ e ∈ events, about e = some v)
    (hkept : Kept s.maxPendingFrames i' none []
      (events.foldl (FrameRecord.observe v) (s.record v))) :
    Inv { s.update v i' events with mutex := .raising frame none rest } := by
  obtain ⟨hnodup, hlt⟩ := h.visits _ _ _ hmutex
  have hrest : v ∉ rest := (List.nodup_cons.mp hnodup).1
  have hleave : ({ s.update v i' events with
      mutex := .raising frame none rest } : VideoSource κ φ).mutex =
      .raising frame none rest := rfl
  refine h.change hv habout rfl rfl rfl ?_ ?_ ?_ ?_
  · intro frame' current' rest' hm
    obtain ⟨rfl, rfl, rfl⟩ := FrameMutex.raising.inj (hleave.symm.trans hm)
    exact ⟨(List.nodup_cons.mp hnodup).2, fun u hu => hlt u (List.mem_cons_of_mem v hu)⟩
  · intro u hu
    rw [transit_of_mutex hleave, transit_of_mutex hmutex, Option.bind_some,
      if_neg fun he => hu he.symm]
    rfl
  · intro u hu
    rw [due_of_mutex hleave, due_of_mutex hmutex]
    simp [Ne.symm hu]
  · rw [transit_of_mutex hleave, due_of_mutex hleave, if_neg (by simp [hrest])]
    exact hkept

theorem about_dropped {frame : φ} {pending : UInt64} :
    ∀ e ∈ (if pending = 0 then [(.dropped v frame : FrameEvent κ φ)] else []),
      about e = some v := by
  intro e he
  split at he
  · rw [List.mem_singleton.mp he]
    rfl
  · cases he

/-- `raise_frame` comes to an invoker; the other ones are as before. -/
theorem Inv.decrement_of_kept (h : Inv s) (hmutex : s.mutex = .raising frame none (v :: rest))
    (hv : s.invokers[v]? = some i)
    (hnew : Kept s.maxPendingFrames
      { i with
        context := some (dispatcher i)
        pendingFramesCount := i.pendingFramesCount - 1 }
      (some (i.pendingFramesCount - 1))
      (if i.pendingFramesCount - 1 = 0 then [] else [frame])
      ((s.decrement v i frame rest).record v)) : Inv (s.decrement v i frame rest) := by
  obtain ⟨hnodup, hlt⟩ := h.visits _ _ _ hmutex
  have hrest : v ∉ rest := (List.nodup_cons.mp hnodup).1
  have hdecrement : (s.decrement v i frame rest).mutex =
      .raising frame (some (v, i.pendingFramesCount - 1)) rest := rfl
  refine h.change hv about_dropped rfl rfl rfl ?_ ?_ ?_ ?_
  · intro frame' current' rest' hm
    obtain ⟨rfl, rfl, rfl⟩ := FrameMutex.raising.inj (hdecrement.symm.trans hm)
    exact ⟨hnodup, hlt⟩
  · intro u hu
    rw [transit_of_mutex hdecrement, transit_of_mutex hmutex, Option.bind_some,
      if_neg fun he => hu he.symm]
    rfl
  · intro u hu
    rw [due_of_mutex hdecrement, due_of_mutex hmutex]
    simp [hu, Ne.symm hu]
  · rw [record_append rfl v] at hnew
    rw [transit_of_mutex hdecrement, due_of_mutex hdecrement, Option.bind_some, if_pos rfl]
    by_cases hzero : i.pendingFramesCount - 1 = 0
    · rw [if_pos hzero] at hnew
      rw [if_neg (by simp [hzero, hrest])]
      exact hnew
    · rw [if_neg hzero] at hnew
      rw [if_pos (by simp [hzero])]
      exact hnew

/-- `raise_frame` comes to an invoker. -/
theorem Inv.decrement (h : Inv s) (hmutex : s.mutex = .raising frame none (v :: rest))
    (hv : s.invokers[v]? = some i) :
    Inv (s.decrement v i frame rest) ∧
      (∀ u, u ≠ v → (s.decrement v i frame rest).record u = s.record u) ∧
      (((s.decrement v i frame rest).record v).drops = (s.record v).drops ++
          (if (s.record v).pending + 1 < s.maxPendingFrames.toNat then []
          else [(s.record v).pending])) := by
  have hkept := h.kept v i hv
  rw [transit_of_mutex hmutex, due_of_mutex hmutex, if_pos (by simp)] at hkept
  have hchange := h.decrement_of_kept hmutex hv
  have hrecord : (s.decrement v i frame rest).record v =
      (if i.pendingFramesCount - 1 = 0 then [.dropped v frame] else []).foldl
        (FrameRecord.observe v) (s.record v) := record_append rfl v
  have hother : ∀ u, u ≠ v → (s.decrement v i frame rest).record u = s.record u :=
    fun u hu => (record_append rfl u).trans (foldl_observe_of_ne about_dropped hu _)
  rcases hkept.decrement with ⟨hzero, hfull, hnew⟩ | ⟨hzero, hspare, hnew⟩
  · rw [if_pos hzero, List.foldl_cons, List.foldl_nil, FrameRecord.observe, if_pos rfl] at hrecord
    rw [hrecord, if_pos hzero] at hchange
    rw [hrecord, if_neg (by omega)]
    exact ⟨hchange hnew, hother, rfl⟩
  · rw [if_neg hzero, List.foldl_nil] at hrecord
    rw [hrecord, if_neg hzero] at hchange
    rw [hrecord, if_pos hspare, List.append_nil]
    exact ⟨hchange hnew, hother, rfl⟩

/-- No frame is dropped. -/
def Quiet (s t : VideoSource κ φ) : Prop :=
  t.maxPendingFrames = s.maxPendingFrames ∧ ∀ v, (t.record v).drops = (s.record v).drops

theorem quiet_of_log (events : List (FrameEvent κ φ))
    (hmax : t.maxPendingFrames = s.maxPendingFrames) (hlog : t.log = s.log ++ events)
    (hnot : ∀ v frame, .dropped v frame ∉ events) : Quiet s t := by
  refine ⟨hmax, fun v => ?_⟩
  rw [record_append hlog]
  generalize s.record v = r
  clear hlog
  induction events generalizing r with
  | nil => rfl
  | cons e events ih =>
    have hstep : (FrameRecord.observe v r e).drops = r.drops := by
      cases e with
      | dropped u frame => exact absurd List.mem_cons_self (hnot u frame)
      | _ => simp only [FrameRecord.observe]; split <;> rfl
    rw [List.foldl_cons, ih (fun u frame hu => hnot u frame (List.mem_cons_of_mem e hu)), hstep]

/-- Behind the decrement. -/
theorem Inv.invokeAsync (h : Inv s)
    (hmutex : s.mutex = .raising frame (some (v, remaining)) rest)
    (hv : s.invokers[v]? = some i) (ht : s.invokeAsync v i remaining frame rest = some t) :
    Inv t ∧ Quiet s t := by
  have hkept := h.visited hmutex hv
  rw [VideoSource.invokeAsync] at ht
  by_cases hzero : remaining = 0
  · subst hzero
    rw [if_pos rfl] at ht hkept
    obtain rfl := Option.some.inj ht
    exact ⟨h.leave hmutex hv [] (by simp) (hkept.restore rfl),
      quiet_of_log [] rfl rfl (by simp)⟩
  · rw [if_neg hzero] at ht hkept
    split at ht
    · cases ht
    · rename_i c hc
      have hdispatcher : dispatcher i = c := by rw [dispatcher, hc]; rfl
      split at ht
      · obtain ⟨c', hc', rfl⟩ := Option.map_eq_some_iff.mp ht
        refine ⟨h.leave hmutex hv [.queued v frame] (by simp [about]) ?_,
          quiet_of_log [.queued v frame] rfl rfl (by simp)⟩
        rw [List.foldl_cons, List.foldl_nil, FrameRecord.observe, if_pos rfl]
        exact hkept.pushAction hzero (hdispatcher ▸ hc')
      · split at ht
        · obtain ⟨c', hc', rfl⟩ := Option.map_eq_some_iff.mp ht
          refine ⟨h.update hv [] (by simp) ?_, quiet_of_log [] rfl rfl (by simp)⟩
          have hadded := hkept.addAction hzero (hdispatcher ▸ hc')
          rw [transit_of_mutex hmutex, due_of_mutex hmutex, Option.bind_some, if_pos rfl,
            if_pos (by simp [hzero])]
          exact hadded
        · -- the dispatcher is not disposed of
          rename_i hrunning
          exact absurd (hdispatcher ▸ hkept.draining.running hkept.running) hrunning

theorem inCall_of_step {c c' : SimpleContext Unit} {a : ContextStep Unit}
    (ha : a = .wake ∨ a = .swapActions ∨ a = .unlock ∨ a = .timersInvoked ∨ a = .endIteration)
    (hc : c.step a = some c') : inCall c' = inCall c := by
  rcases ha with rfl | rfl | rfl | rfl | rfl <;> simp only [SimpleContext.step] at hc
  · split at hc <;> cases hc
    rename_i hworker
    rw [inCall, inCall, hworker]
  · split at hc
    · rename_i hworker
      split at hc <;> cases hc <;> rw [inCall, inCall, hworker]
    · cases hc
  · split at hc <;> cases hc
    rename_i hworker
    rw [inCall, inCall, hworker]
  · split at hc <;> cases hc
    rename_i hworker _ _
    rw [inCall, inCall, hworker]
  · split at hc <;> cases hc
    rename_i stop hworker _
    rw [inCall, inCall, hworker]
    by_cases hstop : stop = true ∨ c.stackStopper = true
    · simp [hstop]
    · simp [hstop]

/-- The dispatcher of an invoker takes a step of its own. -/
theorem Inv.contextStep (h : Inv s) {a : ContextStep Unit} (ht : s.contextStep v a = some t) :
    Inv t ∧ Quiet s t := by
  rw [VideoSource.contextStep] at ht
  split at ht
  · cases ht
  rename_i i hv
  have hkept := h.kept v i hv
  -- the steps between the invocations of actions
  have hworker : ∀ {c : SimpleContext Unit} {a : ContextStep Unit}, i.context = some c →
      (a = .wake ∨ a = .swapActions ∨ a = .unlock ∨ a = .timersInvoked ∨ a = .endIteration) →
      ((c.step a).map fun c' => s.update v { i with context := some c' } []) = some t →
      Inv t ∧ Quiet s t := by
    intro c a hc ha ht'
    obtain ⟨c', hc', rfl⟩ := Option.map_eq_some_iff.mp ht'
    obtain rfl : dispatcher i = c := by rw [dispatcher, hc]; rfl
    have ha' : a = .wake ∨ a = .swapActions ∨ a = .unlock ∨ a = .timersInvoked ∨
        a = .actionReturned ∨ a = .endIteration := by tauto
    obtain ⟨haccepted, hlog, hdisposal, hmutex⟩ := SimpleContext.worker_step_frame ha' hc'
    have hfrom : a.FromOutside := by rcases ha with rfl | rfl | rfl | rfl | rfl <;> trivial
    have hmoved := hkept.move (hkept.inv.step a hc') (hkept.draining.step hkept.inv hfrom hc')
      haccepted hlog hdisposal (inCall_of_step ha hc') hmutex
    exact ⟨h.update hv [] (by simp) hmoved, quiet_of_log [] rfl rfl (by simp)⟩
  split at ht
  · exact hworker ‹_› (.inl rfl) ht
  · exact hworker ‹_› (.inr (.inl rfl)) ht
  · exact hworker ‹_› (.inr (.inr (.inl rfl))) ht
  · exact hworker ‹_› (.inr (.inr (.inr (.inl rfl)))) ht
  · exact hworker ‹_› (.inr (.inr (.inr (.inr rfl)))) ht
  · rename_i c hc
    obtain ⟨c', hc', rfl⟩ := Option.map_eq_some_iff.mp ht
    obtain rfl : dispatcher i = c := by rw [dispatcher, hc]; rfl
    obtain ⟨frame, hevents, hdelivered⟩ := hkept.nextAction (v := v) hc'
    rw [hevents]
    refine ⟨h.update hv [.delivered v frame] (by simp [about]) ?_,
      quiet_of_log [.delivered v frame] rfl rfl (by simp)⟩
    rw [List.foldl_cons, List.foldl_nil, FrameRecord.observe, if_pos rfl]
    exact hdelivered
  · cases ht

/-- A callback returns or throws. -/
theorem Inv.complete (h : Inv s) (ht : s.complete v = some t) : Inv t ∧ Quiet s t := by
  rw [VideoSource.complete] at ht
  split at ht
  · cases ht
  rename_i i hv
  split at ht
  · cases ht
  rename_i c hc
  obtain ⟨c', hc', rfl⟩ := Option.map_eq_some_iff.mp ht
  obtain rfl : dispatcher i = c := by rw [dispatcher, hc]; rfl
  refine ⟨h.update hv [.completed v] (by simp [about]) ?_,
    quiet_of_log [.completed v] rfl rfl (by simp)⟩
  rw [List.foldl_cons, List.foldl_nil, FrameRecord.observe, if_pos rfl]
  exact (h.kept v i hv).complete hc'

/-- `raise_frame` takes the mutex. -/
theorem Inv.raiseFrame (h : Inv s) (hfree : s.mutex = .free) (cancel : Bool) :
    Inv (s.raiseFrame frame cancel) ∧ Quiet s (s.raiseFrame frame cancel) := by
  rw [VideoSource.raiseFrame]
  split
  · exact ⟨h, rfl, fun _ => rfl⟩
  · refine ⟨⟨fun v i hv => ?_, ?_, fun v hv => ?_, h.positive⟩,
      quiet_of_log [.raised frame] rfl rfl (by simp)⟩
    · have hkept := h.kept v i hv
      have hlt := (List.getElem?_eq_some_iff.mp hv).1
      rw [transit_of_free hfree, due_of_free hfree] at hkept
      have hraising : ({ s with
          mutex := .raising frame none (List.range s.invokers.length)
          log := s.log ++ [.raised frame] } : VideoSource κ φ).mutex =
          .raising frame none (List.range s.invokers.length) := rfl
      rw [transit_of_mutex hraising, due_of_mutex hraising,
        if_pos (.inr (List.mem_range.mpr hlt)), record_append rfl, List.foldl_cons, List.foldl_nil]
      exact hkept.raise
    · intro frame' current rest hm
      obtain ⟨rfl, rfl, rfl⟩ := FrameMutex.raising.inj hm
      exact ⟨List.nodup_range, fun v hv => List.mem_range.mp hv⟩
    · rw [record_append rfl, h.fresh v hv]
      rfl

/-- A callback is added. -/
theorem Inv.addFrameCallback [DecidableEq κ] (h : Inv s) (hfree : s.mutex = .free)
    (callback : κ) : Inv (s.addFrameCallback callback).2 ∧
      Quiet s (s.addFrameCallback callback).2 := by
  rw [VideoSource.addFrameCallback]
  split
  · exact ⟨h, rfl, fun _ => rfl⟩
  · have habout : ∀ e ∈ [(.added s.invokers.length callback : FrameEvent κ φ)],
        about e = some s.invokers.length := by simp [about]
    refine ⟨⟨fun v i hv => ?_, ?_, fun v hv => ?_, h.positive⟩,
      quiet_of_log [.added s.invokers.length callback] rfl rfl (by simp)⟩
    · rw [List.getElem?_append] at hv
      split at hv
      · rename_i hlt
        rw [record_append rfl, foldl_observe_of_ne habout (Nat.ne_of_lt hlt)]
        exact h.kept v i hv
      · rename_i hge
        have hlen := (List.getElem?_eq_some_iff.mp hv).1
        rw [List.length_singleton] at hlen
        obtain rfl : v = s.invokers.length := by omega
        rw [Nat.sub_self, List.getElem?_cons_zero, Option.some.injEq] at hv
        subst hv
        rw [record_append rfl, h.fresh _ (Nat.le_refl _)]
        change Kept _ _ (s.transit _) (s.due _) _
        rw [transit_of_free hfree, due_of_free hfree, List.foldl_cons, List.foldl_nil,
          FrameRecord.observe, if_pos rfl]
        exact kept_new h.positive callback
    · intro frame current rest hm
      rw [hfree] at hm
      cases hm
    · rw [List.length_append, List.length_singleton] at hv
      rw [record_append rfl, foldl_observe_of_ne habout (by omega)]
      exact h.fresh v (by omega)

/-- A step drops a frame only if one comes to an invoker for which no more may be pending. -/
theorem Inv.step [DecidableEq κ] (h : Inv s) {a : SourceStep κ φ} (ht : s.step a = some t) :
    Inv t ∧ t.maxPendingFrames = s.maxPendingFrames ∧
      ((Spare s a ∧ ∀ v, (t.record v).drops = (s.record v).drops) ∨
        ¬Spare s a ∧ ∃ v, (t.record v).drops = (s.record v).drops ++ [(s.record v).pending]) := by
  have hquiet : ∀ {a : SourceStep κ φ}, Spare s a → Inv t ∧ Quiet s t →
      Inv t ∧ t.maxPendingFrames = s.maxPendingFrames ∧
      ((Spare s a ∧ ∀ v, (t.record v).drops = (s.record v).drops) ∨
        ¬Spare s a ∧ ∃ v, (t.record v).drops = (s.record v).drops ++ [(s.record v).pending]) :=
    fun ha ⟨hinv, hmax, hdrops⟩ => ⟨hinv, hmax, .inl ⟨ha, hdrops⟩⟩
  cases a with
  | addFrameCallback callback =>
    simp only [VideoSource.step] at ht
    split at ht
    · obtain rfl := Option.some.inj ht
      exact hquiet trivial (h.addFrameCallback ‹_› callback)
    · cases ht
  | raiseFrame frame cancel =>
    simp only [VideoSource.step] at ht
    split at ht
    · obtain rfl := Option.some.inj ht
      exact hquiet trivial (h.raiseFrame ‹_› cancel)
    · cases ht
  | context v a => exact hquiet trivial (h.contextStep ht)
  | complete v threw => exact hquiet trivial (h.complete ht)
  | raise =>
    simp only [VideoSource.step, VideoSource.raise] at ht
    split at ht
    · cases ht
    · rename_i frame hmutex
      obtain rfl := Option.some.inj ht
      refine hquiet (by simp [Spare, hmutex]) ⟨⟨fun v i hv => ?_, nofun, h.fresh, h.positive⟩,
        rfl, fun _ => rfl⟩
      have hkept := h.kept v i hv
      rw [transit_of_mutex hmutex, due_of_mutex hmutex, if_neg (by simp)] at hkept
      exact hkept
    · rename_i frame v rest hmutex
      obtain ⟨i, hv, rfl⟩ := Option.map_eq_some_iff.mp ht
      obtain ⟨hinv, hother, hdrops⟩ := h.decrement hmutex hv
      have hiff : Spare s (.raise : SourceStep κ φ) ↔
          (s.record v).pending + 1 < s.maxPendingFrames.toNat := by simp [Spare, hmutex]
      refine ⟨hinv, rfl, ?_⟩
      by_cases hspare : (s.record v).pending + 1 < s.maxPendingFrames.toNat
      · rw [if_pos hspare, List.append_nil] at hdrops
        refine .inl ⟨hiff.mpr hspare, fun u => ?_⟩
        by_cases hu : u = v
        · exact hu ▸ hdrops
        · rw [hother u hu]
      · rw [if_neg hspare] at hdrops
        exact .inr ⟨fun hs => hspare (hiff.mp hs), v, hdrops⟩
    · rename_i frame v remaining rest hmutex
      obtain ⟨i, hv, hi⟩ := Option.bind_eq_some_iff.mp ht
      exact hquiet (by simp [Spare, hmutex]) (h.invokeAsync hmutex hv hi)

end Step

/-! ### Whole runs -/

theorem inv_construct {m : UInt64} (h : construct m = some s) : Inv s ∧ Bounded s := by
  rw [construct, Option.ite_none_left_eq_some] at h
  obtain ⟨hm, h⟩ := h
  obtain rfl := Option.some.inj h
  refine ⟨⟨fun v i hv => (by cases hv), nofun, fun _ _ => rfl, ?_⟩,
    ⟨fun v => .refl _, fun v => Nat.zero_le _, fun v n hn => (by cases hn)⟩⟩
  exact Nat.pos_of_ne_zero fun hzero => hm (UInt64.toNat_inj.mp hzero)

/-- All but the condition on drops holds in every state. -/
theorem Inv.bounded (h : Inv s)
    (hfull : ∀ v, ∀ n ∈ (s.record v).drops, s.maxPendingFrames.toNat ≤ n) : Bounded s := by
  have hcases : ∀ v, s.record v = .empty ∨
      ∃ i : FrameInvoker κ φ, Kept s.maxPendingFrames i (s.transit v) (s.due v) (s.record v) := by
    intro v
    rcases Nat.lt_or_ge v s.invokers.length with hlt | hge
    · exact .inr ⟨_, h.kept v _ (List.getElem?_eq_getElem hlt)⟩
    · exact .inl (h.fresh v hge)
  refine ⟨fun v => ?_, fun v => ?_, hfull⟩
  · rcases hcases v with hempty | ⟨i, hkept⟩
    · rw [hempty]
      exact .refl _
    · rw [hkept.delivered]
      exact ((List.take_sublist _ _).trans (List.sublist_append_left _ _)).trans hkept.raised
  · rcases hcases v with hempty | ⟨i, hkept⟩
    · rw [hempty]
      exact Nat.zero_le _
    · exact Nat.le_of_lt hkept.spare

/-- **When delivery is bounded as it should be.** Frames are delivered in order, at most once
and with at most `m_max_pending_frames` pending or running, and dropped only when as many are,
throughout a run, precisely if in this run no frame comes to a callback for which all but one
of them are. -/
theorem always_bounded_iff [DecidableEq κ] {m : UInt64} (hs : construct m = some s)
    (l : List (SourceStep κ φ)) :
    Always VideoSource.step Bounded s l ↔ Guarded VideoSource.step Spare s l := by
  obtain ⟨hinv, hbounded⟩ := inv_construct hs
  refine always_iff_guarded l (fun s a t hJ ht => (hJ.step ht).1)
    (fun s a t hJ hP ht => ?_) hinv hbounded
  obtain ⟨hinv', hmax, hdrops⟩ := hJ.step ht
  rcases hdrops with ⟨hspare, hsame⟩ | ⟨hspare, v, hdrop⟩
  · refine iff_of_true (hinv'.bounded fun v n hn => ?_) hspare
    rw [hsame v] at hn
    exact hmax ▸ hP.full v n hn
  · -- at most all but one are pending
    refine iff_of_false (fun hP' => ?_) hspare
    have hfull := hP'.full v (s.record v).pending
      (by rw [hdrop]; exact List.mem_append_right _ List.mem_cons_self)
    rcases Nat.lt_or_ge v s.invokers.length with hlt | hge
    · have hkept := (hJ.kept v _ (List.getElem?_eq_getElem hlt)).spare
      rw [hmax] at hfull
      omega
    · rw [hJ.fresh v hge, hmax] at hfull
      have hpositive := hJ.positive
      have hzero : (FrameRecord.empty : FrameRecord φ).pending = 0 := rfl
      omega

/-- Two frames are allowed; the call for the first throws before the second is raised. -/
def oneAtATime : List (SourceStep Unit ℕ) :=
  [.addFrameCallback (), .raiseFrame 1 false, .raise, .raise, .raise, .raise,
    .context 0 .wake, .context 0 .swapActions, .context 0 .unlock, .context 0 .timersInvoked,
    .context 0 .nextAction, .complete 0 true, .raiseFrame 2 false, .raise, .raise, .raise]

theorem always_bounded_oneAtATime :
    (run VideoSource.step (⟨2, [], .free, []⟩ : VideoSource Unit ℕ) oneAtATime).map
        (fun t => (t.record 0).queued) = some 2 ∧
      Always VideoSource.step Bounded (⟨2, [], .free, []⟩ : VideoSource Unit ℕ) oneAtATime :=
  ⟨rfl, (always_bounded_iff (m := 2) rfl oneAtATime).mpr (by decide)⟩

/-- With one frame allowed, every frame is dropped: the first one is with none pending. -/
theorem dropped_with_none_pending :
    ¬∀ l : List (SourceStep Unit ℕ),
      Always VideoSource.step Bounded (⟨1, [], .free, []⟩ : VideoSource Unit ℕ) l := by
  intro h
  have hbounded := h [.addFrameCallback (), .raiseFrame 1 false, .raise] _ _
    List.prefix_rfl rfl
  have hfull := hbounded.full 0 0 (by decide)
  revert hfull
  decide

end VideoSource

end UtilityFramework
