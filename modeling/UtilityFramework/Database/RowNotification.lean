import UtilityFramework.Database.MemoryRow
import UtilityFramework.Utils.CallbackHandler

/-!
# Concurrent writers of one row

`memory_row_impl::write_bytes` stores under the row mutex and raises the data callbacks
from a scope guard that runs after the mutex has been released: a call is two atomic steps,
and between them other threads may store and notify. The raises of one row exclude each
other (`m_raise_mutex`), so a notification is one step for all subscribers.

Each store that is to be reported takes a ticket: its notification with its position among
the reports of the row. `RowChannel.step` moves one thread at a time, so a list of actions
is a schedule. Whatever the schedule, each ticket is delivered exactly once to each
subscriber (`TicketsDelivered`); the order of delivery is up to the schedule.
-/

namespace UtilityFramework

open Transition

/-! ### The last report -/

/-- The last callback raised carries the current payload. -/
def Register.LastReported (r : Register) : Prop :=
  ∀ n, r.raised.getLast? = some n → n.buffer = some r.payload

theorem Register.lastReported_init : Register.init.LastReported := by
  intro n hn
  simp [Register.init] at hn

/-- A write that is not reported does not change the payload. -/
theorem Register.LastReported.step {r : Register} (h : r.LastReported) (dataSize : ℕ)
    (op : RowOp) : (r.step dataSize op).LastReported := by
  cases op with
  | setWritePriority p => exact h
  | write call =>
    rw [Register.step]
    split
    · rename_i hacc
      intro n hn
      dsimp only at hn ⊢
      split at hn
      · -- A reported write: its own notification is the last one.
        rw [List.getLast?_append, List.getLast?_singleton, Option.some_or,
          Option.some.injEq] at hn
        subst hn
        obtain ⟨d, hd⟩ := Option.ne_none_iff_exists'.mp hacc.1
        simp [WriteCall.payload, hd]
      · rename_i hsame
        have heq : call.payload = r.payload := by
          by_contra hne
          exact hsame (.inr hne)
        rw [List.append_nil] at hn
        rw [heq]
        exact h n hn
    · exact h

/-! ### The schedule -/

section Channel

variable {κ τ : Type*} [DecidableEq κ] [DecidableEq τ]

/-- A notification and its position among the reports of the row. -/
abbrev Ticket := Notification × ℕ

/-- A row with its subscribers and the calls in progress: `pending` holds the threads that
have stored and are still to notify, `log` the invocations of `on_data_changed`. -/
structure RowChannel (κ τ : Type*) where
  state : RowState
  handler : CallbackHandler κ
  pending : List (τ × Ticket)
  log : List (κ × Ticket)

/-- What a thread can do next. -/
inductive RowAction (τ : Type*)
  | store (thread : τ) (call : WriteCall)
  | notify (thread : τ)
  | setWritePriority (priority : UInt8)

namespace RowChannel

/-- A row without calls in progress. -/
def init (row : MemoryRow) (handler : CallbackHandler κ) : RowChannel κ τ :=
  ⟨⟨row, []⟩, handler, [], []⟩

/-- One atomic step. A thread starts a call only after its last one has returned. -/
def step (fresh : ℕ → ℕ → UInt8) (s : RowChannel κ τ) : RowAction τ → Option (RowChannel κ τ)
  | .store thread call =>
    if thread ∈ s.pending.map Prod.fst then none
    else some { s with
      state := s.state.step fresh (.write call)
      pending := s.pending ++
        ((s.state.row.writeBytes fresh call).raised.toList.zipIdx s.state.raised.length).map
          fun ticket => (thread, ticket) }
  | .notify thread =>
    match s.pending.find? fun p => p.1 = thread with
    | none => none
    | some p => some { s with
      pending := s.pending.erase p
      log := s.log ++ s.handler.raiseCallbacks p.2 }
  | .setWritePriority priority =>
    some { s with state := s.state.step fresh (.setWritePriority priority) }

/-- What subscriber `c` has been told, in order. -/
def view (s : RowChannel κ τ) (c : κ) : List Ticket :=
  (s.log.filter fun i => i.1 = c).map Prod.snd

end RowChannel

/-! ### Every schedule delivers every report once -/

variable {fresh : ℕ → ℕ → UInt8} {s t : RowChannel κ τ} {c : κ}

/-- The row represents a register whose last report is its payload, the same reports have
been raised, and the tickets delivered to `c` with those pending are the reports. -/
structure TicketsDelivered (c : κ) (s : RowChannel κ τ) : Prop where
  mem_handler : c ∈ s.handler
  register : ∃ r : Register, Represents s.state.row r.payload r.priority ∧
    s.state.raised = r.raised ∧ r.LastReported
  perm : (s.view c ++ s.pending.map Prod.snd).Perm s.state.raised.zipIdx

omit [DecidableEq τ] in
theorem ticketsDelivered_init {size : ℕ} {type : TypeEnum} {row : MemoryRow}
    {handler : CallbackHandler κ} (hcreate : MemoryRow.create size type = some row)
    (hty : type ≠ .emptyType) (hc : c ∈ handler) :
    TicketsDelivered c (RowChannel.init row handler : RowChannel κ τ) where
  mem_handler := hc
  register := ⟨Register.init, represents_create hcreate hty, rfl, Register.lastReported_init⟩
  perm := List.Perm.nil

/-- The register follows an operation on the row. -/
theorem exists_register_step {st : RowState} (op : RowOp)
    (h : ∃ r : Register, Represents st.row r.payload r.priority ∧ st.raised = r.raised ∧
      r.LastReported) :
    ∃ r : Register, Represents (st.step fresh op).row r.payload r.priority ∧
      (st.step fresh op).raised = r.raised ∧ r.LastReported := by
  obtain ⟨r, hrep, hraised, hlast⟩ := h
  obtain ⟨hrep', -, hraised'⟩ := represents_step fresh op ⟨hrep, rfl, hraised⟩
  exact ⟨r.step st.row.dataSize op, hrep', hraised', hlast.step _ op⟩

theorem TicketsDelivered.store (h : TicketsDelivered c s) (thread : τ) (call : WriteCall)
    (ht : s.step fresh (.store thread call) = some t) : TicketsDelivered c t := by
  rw [RowChannel.step] at ht
  split at ht
  · cases ht
  · rw [Option.some.injEq] at ht
    subst ht
    refine ⟨h.mem_handler, exists_register_step _ h.register, ?_⟩
    simp only [RowState.step, List.map_append, List.map_map, List.zipIdx_append, Nat.zero_add]
    rw [← List.append_assoc]
    refine h.perm.append (List.Perm.of_eq ?_)
    exact List.map_id _

theorem TicketsDelivered.notify (h : TicketsDelivered c s) (thread : τ)
    (ht : s.step fresh (.notify thread) = some t) : TicketsDelivered c t := by
  rw [RowChannel.step] at ht
  split at ht
  · cases ht
  · rename_i p hp
    rw [Option.some.injEq] at ht
    subst ht
    refine ⟨h.mem_handler, h.register, List.Perm.trans ?_ h.perm⟩
    have hview : ({ s with
        pending := s.pending.erase p
        log := s.log ++ s.handler.raiseCallbacks p.2 } : RowChannel κ τ).view c =
        s.view c ++ [p.2] := by
      rw [RowChannel.view, List.filter_append, CallbackHandler.filter_raiseCallbacks,
        if_pos h.mem_handler, List.map_append]
      rfl
    have hpending : (s.pending.map Prod.snd).Perm (p.2 :: (s.pending.erase p).map Prod.snd) :=
      (List.perm_cons_erase (List.mem_of_find?_eq_some hp)).map Prod.snd
    rw [hview, List.append_assoc]
    exact (List.Perm.append_left _ hpending).symm

/-- One step of any thread keeps the tickets. -/
theorem TicketsDelivered.step (h : TicketsDelivered c s) (a : RowAction τ)
    (ht : s.step fresh a = some t) : TicketsDelivered c t := by
  cases a with
  | store thread call => exact h.store thread call ht
  | notify thread => exact h.notify thread ht
  | setWritePriority p =>
    rw [RowChannel.step, Option.some.injEq] at ht
    subst ht
    exact ⟨h.mem_handler, exists_register_step _ h.register, h.perm⟩

omit [DecidableEq τ] in
/-- The last report of a row carries the stored bytes. -/
theorem TicketsDelivered.buffer_eq_stored (h : TicketsDelivered c s) {n : Notification} {i : ℕ}
    (hmem : (n, i) ∈ s.state.raised.zipIdx) (hi : i + 1 = s.state.raised.length) :
    n.buffer = some s.state.row.stored := by
  obtain ⟨r, hrep, hraised, hlast⟩ := h.register
  rw [List.mk_mem_zipIdx_iff_getElem?] at hmem
  rw [hrep.stored_eq]
  refine hlast n ?_
  rw [← hraised, List.getLast?_eq_getElem?, ← hi, Nat.add_sub_cancel, hmem]

/-- **Notifications of concurrent writers.** Once every call on a data row has finished, a
subscriber has been told each reported store exactly once, with the payload of that store;
and if the report delivered last is that of the last reported store, its payload is the
stored payload. -/
theorem lastNotification_eq_stored {size : ℕ} {type : TypeEnum} {row : MemoryRow}
    {handler : CallbackHandler κ} {acts : List (RowAction τ)}
    (hcreate : MemoryRow.create size type = some row) (hty : type ≠ .emptyType)
    (hc : c ∈ handler)
    (hrun : run (RowChannel.step fresh) (RowChannel.init row handler) acts = some s)
    (hdone : s.pending = []) :
    (s.view c).Perm s.state.raised.zipIdx ∧
      ∀ n i, (s.view c).getLast? = some (n, i) → i + 1 = s.state.raised.length →
        n.buffer = some s.state.row.stored := by
  have h : TicketsDelivered c s :=
    run_invariant hrun (fun _ a _ hi => hi.step a) (ticketsDelivered_init hcreate hty hc)
  have hperm : (s.view c).Perm s.state.raised.zipIdx := by
    have := h.perm
    rwa [hdone, List.map_nil, List.append_nil] at this
  refine ⟨hperm, fun n i hlast hi => ?_⟩
  exact h.buffer_eq_stored (hperm.mem_iff.mp (List.mem_of_getLast? hlast)) hi

/-- Two calls that store and notify in the same order. -/
theorem lastNotification_eq_stored_in_order :
    ∃ s : RowChannel ℕ ℕ,
      run (RowChannel.step fun _ _ => 0)
        (RowChannel.init (MemoryRow.construct 1 true .uint8) ⟨[0], List.nodup_singleton 0⟩)
        [.store 0 ⟨some [1], 1, false, 0, by simp⟩, .store 1 ⟨some [2], 1, false, 0, by simp⟩,
          .notify 0, .notify 1] = some s ∧
      (s.view 0).getLast? = some (⟨1, some [2]⟩, 1) ∧ some [2] = some s.state.row.stored := by
  have hcreate : MemoryRow.create 1 .uint8 = some (MemoryRow.construct 1 true .uint8) := rfl
  have hmem : 0 ∈ (⟨[0], List.nodup_singleton 0⟩ : CallbackHandler ℕ) := by decide
  let s : RowChannel ℕ ℕ :=
    ⟨⟨⟨1, 1, some [2], false, 0, 0, .uint8⟩, [⟨1, some [1]⟩, ⟨1, some [2]⟩]⟩,
      ⟨[0], List.nodup_singleton 0⟩, [], [(0, ⟨1, some [1]⟩, 0), (0, ⟨1, some [2]⟩, 1)]⟩
  have hrun : run (RowChannel.step fun _ _ => 0)
      (RowChannel.init (MemoryRow.construct 1 true .uint8) ⟨[0], List.nodup_singleton 0⟩)
      [.store 0 ⟨some [1], 1, false, 0, by simp⟩, .store 1 ⟨some [2], 1, false, 0, by simp⟩,
        .notify 0, .notify 1] = some s := rfl
  exact ⟨s, hrun, rfl,
    (lastNotification_eq_stored hcreate (by decide) hmem hrun rfl).2 ⟨1, some [2]⟩ 1 rfl rfl⟩

/-- The later store may notify first: the subscriber then ends with the payload `[1]` while
the row holds `[2]`. -/
theorem lastNotification_stale :
    ∃ (row : MemoryRow) (acts : List (RowAction ℕ)) (s : RowChannel ℕ ℕ),
      MemoryRow.create 1 .uint8 = some row ∧
      run (RowChannel.step fun _ _ => 0)
        (RowChannel.init row ⟨[0], List.nodup_singleton 0⟩) acts = some s ∧
      s.pending = [] ∧ (s.view 0).getLast? = some (⟨1, some [1]⟩, 0) ∧
      s.state.row.stored = [2] :=
  ⟨_, [.store 0 ⟨some [1], 1, false, 0, by simp⟩, .store 1 ⟨some [2], 1, false, 0, by simp⟩,
    .notify 1, .notify 0], _, rfl, rfl, rfl, rfl, rfl⟩

end Channel

end UtilityFramework
