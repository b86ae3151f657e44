import UtilityFramework.Database.MemoryRow
import UtilityFramework.Lib.Transition

/-!
# Bound rows

`utils::database::data_binder` binds a target row to a source row of the same size: it
subscribes to the source with a function that writes what is reported to the target. The
functions run on the worker of a dispatcher, and a write of the worker is reported like any
other, so that bindings can follow one another.

A write stores, clones the functions subscribed to the row, and enqueues an action for each of
them; in between clients, other writers and the worker may run. The writers of one row come
one after another: a report is enqueued before the next write of that row.

Where clients bind rows that hold the same bytes, as `copy_init_value` provides, and leave them to
the binder then, a row and the row bound to it read alike as soon as nothing is on its way between
them (`agree_of_run`). Rows that differ when they are bound differ until the source is written;
and a write that comes between the copy and the subscription is not reported.
-/

namespace UtilityFramework

open Bytes Transition

variable {ρ : Type*}

/-! ### Rows -/

namespace MemoryRow

/-- A row of a data type that represents what it stores, which is no more than its size. -/
structure Data (row : MemoryRow) : Prop where
  represents : Represents row row.stored row.writePriority
  length_le : row.stored.length ≤ row.dataSize

variable {row : MemoryRow} {call : WriteCall}

theorem data_create {size : ℕ} {type : TypeEnum} (h : create size type = some row)
    (hty : type ≠ .emptyType) : row.Data := by
  have hrep := represents_create h hty
  refine ⟨?_, ?_⟩
  · rw [hrep.stored_eq, hrep.priority_eq]
    exact hrep
  · rw [hrep.stored_eq]
    exact Nat.zero_le _

theorem Data.setWritePriority (h : row.Data) (priority : UInt8) :
    (row.setWritePriority priority).Data :=
  ⟨⟨h.1.type_ne, rfl, h.1.size_eq, rfl, h.1.bounded, h.1.unbounded⟩, h.2⟩

/-- A write leaves a data row with the priority it had. -/
theorem Data.writeBytes (h : row.Data) (fresh : ℕ → ℕ → UInt8) (call : WriteCall) :
    (row.writeBytes fresh call).row.Data ∧
      (row.writeBytes fresh call).row.writePriority = row.writePriority := by
  by_cases hacc : call.Accepted row.dataSize row.writePriority
  · have hrep := (h.represents.writeBytes fresh hacc).1
    refine ⟨⟨?_, ?_⟩, hrep.priority_eq⟩
    · rw [hrep.stored_eq, hrep.priority_eq]
      exact hrep
    · rw [hrep.stored_eq, dataSize_writeBytes, WriteCall.payload_length hacc.1]
      exact hacc.2.2.1
  · rw [(writeBytes_of_not_accepted fresh call h.represents.type_ne hacc).1]
    exact ⟨h, rfl⟩

/-- A report carries what the row stores, and a write that is not reported leaves that as it
was. -/
theorem Data.raised_writeBytes (h : row.Data) (fresh : ℕ → ℕ → UInt8) (call : WriteCall) :
    (∀ n, (row.writeBytes fresh call).raised = some n →
      n.buffer = some (row.writeBytes fresh call).row.stored ∧
      0 < (row.writeBytes fresh call).row.stored.length ∧
      (row.writeBytes fresh call).row.stored.length ≤ row.dataSize) ∧
    ((row.writeBytes fresh call).raised = none →
      (row.writeBytes fresh call).row.stored = row.stored) := by
  by_cases hacc : call.Accepted row.dataSize row.writePriority
  · obtain ⟨hrep, hraised⟩ := h.represents.writeBytes fresh hacc
    obtain ⟨data, hdata⟩ := Option.ne_none_iff_exists'.mp hacc.1
    have hpayload : call.payload = data := by rw [WriteCall.payload, hdata, Option.getD_some]
    have hlen := WriteCall.payload_length hacc.1
    rw [hrep.stored_eq, hraised]
    split_ifs with hreport
    · refine ⟨?_, False.elim⟩
      rintro n hn
      cases hn
      exact ⟨by rw [hdata, hpayload], hlen ▸ hacc.2.1, hlen ▸ hacc.2.2.1⟩
    · refine ⟨fun _ => False.elim, fun _ => ?_⟩
      by_contra hne
      exact hreport (.inr hne)
  · obtain ⟨hrow, hraised⟩ := writeBytes_of_not_accepted fresh call h.represents.type_ne hacc
    rw [hrow, hraised]
    exact ⟨fun n hn => absurd hn.symm (Option.some_ne_none n), fun _ => rfl⟩

theorem Data.stored_writeBytes (h : row.Data) (fresh : ℕ → ℕ → UInt8)
    (hacc : call.Accepted row.dataSize row.writePriority) :
    (row.writeBytes fresh call).row.stored = call.payload ∧
      (call.forceReport = true → (row.writeBytes fresh call).raised ≠ none) := by
  obtain ⟨hrep, hraised⟩ := h.represents.writeBytes fresh hacc
  refine ⟨hrep.stored_eq, fun hforce => ?_⟩
  rw [hraised, if_pos (.inl hforce)]
  exact Option.some_ne_none _

end MemoryRow

/-- Two contents that no reader can tell apart: they differ by zeros at their ends. -/
def SameBytes (a b : List UInt8) : Prop :=
  ∀ n, (a ++ List.replicate n 0).take n = (b ++ List.replicate n 0).take n

theorem SameBytes.refl (a : List UInt8) : SameBytes a a := fun _ => rfl

/-- Rows of one size with the same bytes read alike. -/
theorem SameBytes.readBytes_eq {row row' : MemoryRow} (h : SameBytes row.stored row'.stored)
    (hrow : row.Data) (hrow' : row'.Data) (hsize : row.dataSize = row'.dataSize)
    (dst : Option (List UInt8)) (n : ℕ) : row.readBytes dst n = row'.readBytes dst n := by
  cases dst with
  | none => rfl
  | some dst =>
    by_cases hn : 0 < n ∧ n ≤ row.dataSize
    · rw [hrow.represents.readBytes_eq hn.1 hn.2,
        hrow'.represents.readBytes_eq hn.1 (hsize ▸ hn.2), h n]
    · have hfails : ∀ r : MemoryRow, r.dataSize = row.dataSize →
          r.readBytes (some dst) n = none := by
        intro r hr
        have hcond : n > r.maxSize ∨ n = 0 := by rw [MemoryRow.dataSize] at hr; omega
        simp only [MemoryRow.readBytes, if_pos hcond]
      rw [hfails row rfl, hfails row' hsize.symm]

/-! ### The binder -/

/-- A binding: the subscription to `source` whose function writes `target`. -/
structure Binding (ρ : Type*) where
  source : ρ
  target : ρ
  forceReport : Bool
  deriving DecidableEq, Repr

/-- What the writer of a row is doing. -/
inductive RowWriter (ρ : Type*)
  | idle
  /-- It has stored, and is still to clone the functions. -/
  | stored (payload : List UInt8)
  /-- It is to enqueue the report for each of these. -/
  | raising (payload : List UInt8) (functions : List (Binding ρ))
  deriving DecidableEq

theorem RowWriter.stored_ne_idle (payload : List UInt8) :
    RowWriter.stored payload ≠ (.idle : RowWriter ρ) := nofun

theorem RowWriter.raising_ne_idle (payload : List UInt8) (functions : List (Binding ρ)) :
    RowWriter.raising payload functions ≠ .idle := nofun

/-- The writer of a row after its store. -/
def RowWriter.ofRaised : Option Notification → RowWriter ρ
  | none => .idle
  | some n => .stored (n.buffer.getD [])

/-- What the writer is still to enqueue for a binding of its row. -/
def RowWriter.pending [DecidableEq ρ] (b : Binding ρ) (writer : RowWriter ρ) :
    List (List UInt8) :=
  match writer with
  | .idle => []
  | .stored payload => [payload]
  | .raising payload functions => if b ∈ functions then [payload] else []

/-- The payloads queued for a binding. -/
def queuedFor [DecidableEq ρ] (queue : List (Binding ρ × List UInt8)) (b : Binding ρ) :
    List (List UInt8) :=
  (queue.filter fun e => e.1 = b).map Prod.snd

section Pending

variable [DecidableEq ρ] (b c : Binding ρ) (payload : List UInt8)

@[simp] theorem RowWriter.pending_idle : RowWriter.pending b .idle = [] := rfl

@[simp] theorem RowWriter.pending_stored : RowWriter.pending b (.stored payload) = [payload] :=
  rfl

theorem RowWriter.pending_raising (functions : List (Binding ρ)) :
    RowWriter.pending b (.raising payload functions) =
      if b ∈ functions then [payload] else [] := rfl

theorem queuedFor_cons (queue : List (Binding ρ × List UInt8)) :
    queuedFor ((c, payload) :: queue) b =
      if c = b then payload :: queuedFor queue b else queuedFor queue b := by
  rw [queuedFor, List.filter_cons]
  by_cases h : c = b <;> simp [h, queuedFor]

theorem queuedFor_concat (queue : List (Binding ρ × List UInt8)) :
    queuedFor (queue ++ [(c, payload)]) b =
      queuedFor queue b ++ if c = b then [payload] else [] := by
  rw [queuedFor, List.filter_append, List.map_append]
  by_cases h : c = b <;> simp [h, queuedFor]

end Pending

/-- Rows, the bindings between them and the dispatcher of the binder; `worker` is the row
that the worker is writing. -/
structure DataBinder (ρ : Type*) where
  rows : ρ → MemoryRow
  bindings : List (Binding ρ)
  writers : ρ → RowWriter ρ
  queue : List (Binding ρ × List UInt8)
  worker : Option ρ

/-- What clients, writers and the worker do. `bind` first copies the initial value if it is
told to, and subscribes then. -/
inductive BinderStep (ρ : Type*)
  | write (row : ρ) (call : WriteCall)
  | setWritePriority (row : ρ) (priority : UInt8)
  | copyInitValue (source target : ρ) (forceReport : Bool)
  | bind (source target : ρ) (forceReport : Bool)
  | raise (row : ρ)
  | enqueue (row : ρ)
  | finish (row : ρ)
  | work

/-- The steps that no client calls for. -/
def BinderStep.Own : BinderStep ρ → Prop
  | .raise _ | .enqueue _ | .finish _ | .work => True
  | _ => False

/-- `write_bytes(buffer, size, force_report, 0)`. -/
def bindingCall (data : List UInt8) (forceReport : Bool) : WriteCall :=
  ⟨some data, data.length, forceReport, 0, WriteCall.readable_some data⟩

namespace DataBinder

/-- A binder that binds nothing yet. -/
def start (rows : ρ → MemoryRow) : DataBinder ρ := ⟨rows, [], fun _ => .idle, [], none⟩

variable [DecidableEq ρ]

/-- `write_bytes` up to the release of the row's lock. -/
def store (fresh : ℕ → ℕ → UInt8) (s : DataBinder ρ) (row : ρ) (call : WriteCall) :
    DataBinder ρ :=
  { s with
    rows := Function.update s.rows row ((s.rows row).writeBytes fresh call).row
    writers := Function.update s.writers row
      (.ofRaised ((s.rows row).writeBytes fresh call).raised) }

/-- A writer goes on. -/
def setWriter (s : DataBinder ρ) (row : ρ) (writer : RowWriter ρ) : DataBinder ρ :=
  { s with writers := Function.update s.writers row writer }

/-- The bytes that `bind` copies: the whole row, read into a buffer of indeterminate bytes. -/
def initValue (fresh : ℕ → ℕ → UInt8) (row : MemoryRow) : List UInt8 :=
  let buffer := (List.range row.dataSize).map (fresh row.dataSize)
  (row.readBytes (some buffer) row.dataSize).getD buffer

/-- One step. A write waits for the writer before it. `copyInitValue` throws for an unbounded
row: it asks for a vector of `data_size()` bytes. `bind` fails for rows of different sizes. -/
def step (fresh : ℕ → ℕ → UInt8) (s : DataBinder ρ) : BinderStep ρ → Option (DataBinder ρ)
  | .write row call =>
    if s.writers row = .idle then some (s.store fresh row call) else none
  | .setWritePriority row priority =>
    some { s with rows := Function.update s.rows row ((s.rows row).setWritePriority priority) }
  | .copyInitValue source target forceReport =>
    if (s.rows source).dataSize ≠ (s.rows target).dataSize then none
    else if (s.rows source).dataSize = 0 then some s
    else if (s.rows source).dataSize ≠ unboundedRowSize ∧ s.writers target = .idle then
      some (s.store fresh target (bindingCall (initValue fresh (s.rows source)) forceReport))
    else none
  | .bind source target forceReport =>
    if (s.rows source).dataSize = (s.rows target).dataSize then
      some { s with bindings := s.bindings ++ [⟨source, target, forceReport⟩] }
    else none
  | .raise row =>
    match s.writers row with
    | .stored payload =>
      some (s.setWriter row (.raising payload (s.bindings.filter fun b => b.source = row)))
    | _ => none
  | .enqueue row =>
    match s.writers row with
    | .raising payload (b :: functions) =>
      some { s.setWriter row (.raising payload functions) with
        queue := s.queue ++ [(b, payload)] }
    | _ => none
  | .finish row =>
    match s.writers row with
    | .raising _ [] =>
      some { s.setWriter row .idle with
        worker := if s.worker = some row then none else s.worker }
    | _ => none
  | .work =>
    match s.worker, s.queue with
    | none, (b, payload) :: queue =>
      if s.writers b.target = .idle then
        let t := s.store fresh b.target (bindingCall payload b.forceReport)
        some { t with
          queue := queue
          worker := if t.writers b.target = .idle then none else some b.target }
      else none
    | _, _ => none

/-! ### What holds whatever clients do -/

/-- A payload that the row accepts from the worker. -/
def Fits (s : DataBinder ρ) (row : ρ) (payload : List UInt8) : Prop :=
  0 < payload.length ∧ payload.length ≤ (s.rows row).dataSize

/-- Rows hold data, bindings connect rows of one size that the worker may write, and what is
on its way fits. -/
structure Inv (s : DataBinder ρ) : Prop where
  data : ∀ row, (s.rows row).Data
  bound : ∀ b ∈ s.bindings, (s.rows b.source).dataSize = (s.rows b.target).dataSize ∧
    (s.rows b.target).writePriority = 0
  queued : ∀ e ∈ s.queue, e.1 ∈ s.bindings ∧ s.Fits e.1.target e.2
  stored : ∀ row payload, s.writers row = .stored payload → s.Fits row payload
  raising : ∀ row payload functions, s.writers row = .raising payload functions →
    s.Fits row payload ∧ ∀ b ∈ functions, b ∈ s.bindings ∧ b.source = row
  worker : ∀ row, s.worker = some row → s.writers row ≠ .idle

/-- Bound rows are left writable for the worker. -/
def KeepsPriority (s : DataBinder ρ) : BinderStep ρ → Prop
  | .setWritePriority row _ => ∀ b ∈ s.bindings, b.target ≠ row
  | .bind _ target _ => (s.rows target).writePriority = 0
  | _ => True

variable {fresh : ℕ → ℕ → UInt8} {s t : DataBinder ρ} {row : ρ} {call : WriteCall}
  {a : BinderStep ρ} {b : Binding ρ}

omit [DecidableEq ρ] in
theorem inv_start {rows : ρ → MemoryRow} (h : ∀ row, (rows row).Data) : (start rows).Inv :=
  ⟨h, nofun, nofun, nofun, nofun, nofun⟩

theorem rows_store (other : ρ) : (s.store fresh row call).rows other =
    if other = row then ((s.rows row).writeBytes fresh call).row else s.rows other :=
  Function.update_apply _ _ _ _

theorem writers_store (other : ρ) : (s.store fresh row call).writers other =
    if other = row then .ofRaised ((s.rows row).writeBytes fresh call).raised
    else s.writers other :=
  Function.update_apply _ _ _ _

theorem writers_setWriter (writer : RowWriter ρ) (other : ρ) :
    (s.setWriter row writer).writers other =
      if other = row then writer else s.writers other :=
  Function.update_apply _ _ _ _

@[simp] theorem dataSize_store (other : ρ) :
    ((s.store fresh row call).rows other).dataSize = (s.rows other).dataSize := by
  rw [rows_store]
  split_ifs with h
  · rw [h, MemoryRow.dataSize_writeBytes]
  · rfl

theorem write_eq_some (ht : s.step fresh (.write row call) = some t) :
    s.writers row = .idle ∧ t = s.store fresh row call := by
  rw [step] at ht
  split_ifs at ht with hidle
  cases ht
  exact ⟨hidle, rfl⟩

/-- The copy of an initial value is a write of the target, or nothing. -/
theorem copyInitValue_eq_some {source target : ρ} {forceReport : Bool}
    (ht : s.step fresh (.copyInitValue source target forceReport) = some t) :
    (s.rows source).dataSize = (s.rows target).dataSize ∧
      (t = s ∧ (s.rows source).dataSize = 0 ∨
        0 < (s.rows source).dataSize ∧ s.writers target = .idle ∧
          t = s.store fresh target
            (bindingCall (initValue fresh (s.rows source)) forceReport)) := by
  rw [step] at ht
  split_ifs at ht with hsize hzero hwrite
  · cases ht
    exact ⟨Decidable.of_not_not hsize, .inl ⟨rfl, hzero⟩⟩
  · cases ht
    exact ⟨Decidable.of_not_not hsize, .inr ⟨Nat.pos_of_ne_zero hzero, hwrite.2, rfl⟩⟩

theorem bind_eq_some {source target : ρ} {forceReport : Bool}
    (ht : s.step fresh (.bind source target forceReport) = some t) :
    (s.rows source).dataSize = (s.rows target).dataSize ∧
      t = { s with bindings := s.bindings ++ [⟨source, target, forceReport⟩] } := by
  rw [step] at ht
  split_ifs at ht with hsize
  cases ht
  exact ⟨hsize, rfl⟩

theorem raise_eq_some (ht : s.step fresh (.raise row) = some t) :
    ∃ payload, s.writers row = .stored payload ∧
      t = s.setWriter row (.raising payload (s.bindings.filter fun b => b.source = row)) := by
  rw [step] at ht
  split at ht
  · rename_i payload hw
    cases ht
    exact ⟨payload, hw, rfl⟩
  · cases ht

theorem enqueue_eq_some (ht : s.step fresh (.enqueue row) = some t) :
    ∃ payload b functions, s.writers row = .raising payload (b :: functions) ∧
      t = { s.setWriter row (.raising payload functions) with
        queue := s.queue ++ [(b, payload)] } := by
  rw [step] at ht
  split at ht
  · rename_i payload b functions hw
    cases ht
    exact ⟨payload, b, functions, hw, rfl⟩
  · cases ht

theorem finish_eq_some (ht : s.step fresh (.finish row) = some t) :
    ∃ payload, s.writers row = .raising payload [] ∧
      t = { s.setWriter row .idle with
        worker := if s.worker = some row then none else s.worker } := by
  rw [step] at ht
  split at ht
  · rename_i payload hw
    cases ht
    exact ⟨payload, hw, rfl⟩
  · cases ht

/-- What the worker does: the write of the first action. -/
theorem work_eq_some (ht : s.step fresh .work = some t) :
    ∃ b payload queue, s.worker = none ∧ s.queue = (b, payload) :: queue ∧
      s.writers b.target = .idle ∧
      t = { s.store fresh b.target (bindingCall payload b.forceReport) with
        queue := queue
        worker := if (s.store fresh b.target (bindingCall payload b.forceReport)).writers
          b.target = .idle then none else some b.target } := by
  rw [step] at ht
  split at ht
  · rename_i b payload queue hworker hqueue
    split_ifs at ht with hidle
    cases ht
    exact ⟨b, payload, queue, hworker, hqueue, hidle, rfl⟩
  · cases ht

/-- A store by whoever may write the row next. -/
theorem Inv.store (hs : s.Inv) (fresh : ℕ → ℕ → UInt8) (hidle : s.writers row = .idle)
    (call : WriteCall) : (s.store fresh row call).Inv := by
  have hdata := (hs.data row).writeBytes fresh call
  have hprio : ∀ other, ((s.store fresh row call).rows other).writePriority =
      (s.rows other).writePriority := by
    intro other
    rw [rows_store]
    split_ifs with h
    · rw [h, hdata.2]
    · rfl
  refine ⟨fun other => ?_, fun b hb => ?_, fun e he => ?_, fun other payload h => ?_,
    fun other payload functions h => ?_, fun other h => ?_⟩
  · rw [rows_store]
    split_ifs
    · exact hdata.1
    · exact hs.data other
  · rw [dataSize_store, dataSize_store, hprio]
    exact hs.bound b hb
  · rw [Fits, dataSize_store]
    exact hs.queued e he
  · rw [writers_store] at h
    rw [Fits, dataSize_store]
    split_ifs at h with ho
    · cases hraised : ((s.rows row).writeBytes fresh call).raised with
      | none => rw [hraised] at h; cases h
      | some n =>
        obtain ⟨hbuffer, hpos, hle⟩ := ((hs.data row).raised_writeBytes fresh call).1 n hraised
        rw [hraised, RowWriter.ofRaised, hbuffer, Option.getD_some] at h
        cases h
        exact ⟨hpos, ho ▸ hle⟩
    · exact hs.stored other payload h
  · rw [writers_store] at h
    rw [Fits, dataSize_store]
    split_ifs at h
    · cases hraised : ((s.rows row).writeBytes fresh call).raised <;>
        rw [hraised] at h <;> cases h
    · exact hs.raising other payload functions h
  · rw [writers_store]
    split_ifs with ho
    · exact absurd (ho ▸ hidle) (hs.worker other h)
    · exact hs.worker other h

/-- A writer that goes on. -/
theorem Inv.setWriter (hs : s.Inv) {writer : RowWriter ρ}
    (hstored : ∀ payload, writer = .stored payload → s.Fits row payload)
    (hraising : ∀ payload functions, writer = .raising payload functions →
      s.Fits row payload ∧ ∀ b ∈ functions, b ∈ s.bindings ∧ b.source = row)
    (hworker : s.worker = some row → writer ≠ .idle) : (s.setWriter row writer).Inv := by
  refine ⟨hs.data, hs.bound, hs.queued, fun other payload h => ?_,
    fun other payload functions h => ?_, fun other h => ?_⟩
  · rw [writers_setWriter] at h
    split_ifs at h with ho
    · exact ho ▸ hstored payload h
    · exact hs.stored other payload h
  · rw [writers_setWriter] at h
    split_ifs at h with ho
    · exact ho ▸ hraising payload functions h
    · exact hs.raising other payload functions h
  · rw [writers_setWriter]
    split_ifs with ho
    · exact hworker (ho ▸ h)
    · exact hs.worker other h

theorem Inv.raise (hs : s.Inv) (ht : s.step fresh (.raise row) = some t) : t.Inv := by
  obtain ⟨payload, hw, rfl⟩ := raise_eq_some ht
  refine hs.setWriter nofun (fun p functions h => ?_) nofun
  cases h
  refine ⟨hs.stored row payload hw, fun b hb => ?_⟩
  rw [List.mem_filter, decide_eq_true_iff] at hb
  exact hb

theorem Inv.enqueue (hs : s.Inv) (ht : s.step fresh (.enqueue row) = some t) : t.Inv := by
  obtain ⟨payload, b, functions, hw, rfl⟩ := enqueue_eq_some ht
  obtain ⟨hfits, hfunctions⟩ := hs.raising row payload _ hw
  have hnext : (s.setWriter row (.raising payload functions)).Inv := by
    refine hs.setWriter nofun (fun p fs h => ?_) nofun
    cases h
    exact ⟨hfits, fun b hb => hfunctions b (List.mem_cons_of_mem _ hb)⟩
  refine ⟨hnext.data, hnext.bound, fun e he => ?_, hnext.stored, hnext.raising, hnext.worker⟩
  rw [List.mem_append, List.mem_singleton] at he
  obtain he | rfl := he
  · exact hnext.queued e he
  · obtain ⟨hb, hsource⟩ := hfunctions b List.mem_cons_self
    refine ⟨hb, hfits.1, ?_⟩
    have hsize := (hs.bound b hb).1
    rw [hsource] at hsize
    exact hsize ▸ hfits.2

theorem Inv.finish (hs : s.Inv) (ht : s.step fresh (.finish row) = some t) : t.Inv := by
  obtain ⟨-, -, rfl⟩ := finish_eq_some ht
  refine ⟨hs.data, hs.bound, hs.queued, fun other payload h => ?_,
    fun other payload functions h => ?_, fun other h => ?_⟩
  · rw [writers_setWriter] at h
    split_ifs at h
    exact hs.stored other payload h
  · rw [writers_setWriter] at h
    split_ifs at h
    exact hs.raising other payload functions h
  · dsimp only at h
    split_ifs at h with hrow
    rw [writers_setWriter, if_neg fun ho : other = row => hrow (ho ▸ h)]
    exact hs.worker other h

theorem Inv.work (hs : s.Inv) (ht : s.step fresh .work = some t) : t.Inv := by
  obtain ⟨b, payload, queue, -, hqueue, hidle, rfl⟩ := work_eq_some ht
  have hstore := hs.store fresh hidle (bindingCall payload b.forceReport)
  refine ⟨hstore.data, hstore.bound, fun e he => ?_, hstore.stored, hstore.raising,
    fun other h => ?_⟩
  · exact hstore.queued e (hqueue ▸ List.mem_cons_of_mem _ he)
  · dsimp only at h
    split_ifs at h with hwriter
    cases h
    exact hwriter

theorem Inv.setWritePriority (hs : s.Inv) {priority : UInt8}
    (hok : s.KeepsPriority (.setWritePriority row priority))
    (ht : s.step fresh (.setWritePriority row priority) = some t) : t.Inv := by
  cases ht
  have hrow : ∀ other, Function.update s.rows row ((s.rows row).setWritePriority priority) other =
      if other = row then (s.rows row).setWritePriority priority else s.rows other :=
    fun other => Function.update_apply _ _ _ _
  have hsize : ∀ other, (Function.update s.rows row
      ((s.rows row).setWritePriority priority) other).dataSize = (s.rows other).dataSize := by
    intro other
    rw [hrow]
    split_ifs with ho
    · rw [ho, MemoryRow.setWritePriority, MemoryRow.dataSize, MemoryRow.dataSize]
    · rfl
  refine ⟨fun other => ?_, fun b hb => ?_, fun e he => ?_, fun other payload h => ?_,
    fun other payload functions h => ?_, hs.worker⟩
  · dsimp only
    rw [hrow]
    split_ifs
    · exact (hs.data row).setWritePriority priority
    · exact hs.data other
  · dsimp only
    rw [hsize, hsize, hrow, if_neg (hok b hb)]
    exact hs.bound b hb
  · rw [Fits, hsize]
    exact hs.queued e he
  · rw [Fits, hsize]
    exact hs.stored other payload h
  · rw [Fits, hsize]
    exact hs.raising other payload functions h

theorem Inv.bind (hs : s.Inv) {source target : ρ} {forceReport : Bool}
    (hok : s.KeepsPriority (.bind source target forceReport))
    (ht : s.step fresh (.bind source target forceReport) = some t) : t.Inv := by
  obtain ⟨hsize, rfl⟩ := bind_eq_some ht
  refine ⟨hs.data, fun b hb => ?_, fun e he => ?_, hs.stored,
    fun other payload functions h => ?_, hs.worker⟩
  · rw [List.mem_append, List.mem_singleton] at hb
    obtain hb | rfl := hb
    · exact hs.bound b hb
    · exact ⟨hsize, hok⟩
  · exact ⟨List.mem_append_left _ (hs.queued e he).1, (hs.queued e he).2⟩
  · obtain ⟨hfits, hfunctions⟩ := hs.raising other payload functions h
    exact ⟨hfits, fun b hb => ⟨List.mem_append_left _ (hfunctions b hb).1, (hfunctions b hb).2⟩⟩

theorem Inv.step (hs : s.Inv) (hok : s.KeepsPriority a) (ht : s.step fresh a = some t) :
    t.Inv := by
  cases a with
  | write row call =>
    obtain ⟨hidle, rfl⟩ := write_eq_some ht
    exact hs.store fresh hidle call
  | setWritePriority row priority => exact hs.setWritePriority hok ht
  | copyInitValue source target forceReport =>
    obtain ⟨-, ⟨rfl, -⟩ | ⟨-, hidle, rfl⟩⟩ := copyInitValue_eq_some ht
    · exact hs
    · exact hs.store fresh hidle _
  | bind source target forceReport => exact hs.bind hok ht
  | raise row => exact hs.raise ht
  | enqueue row => exact hs.enqueue ht
  | finish row => exact hs.finish ht
  | work => exact hs.work ht

/-! ### What is on its way -/

/-- The payloads on their way from the source of a binding to its target, oldest first. -/
def underway (s : DataBinder ρ) (b : Binding ρ) : List (List UInt8) :=
  queuedFor s.queue b ++ (s.writers b.source).pending b

/-- What the target will store when all that is on its way has arrived. -/
def arriving (s : DataBinder ρ) (b : Binding ρ) : List UInt8 :=
  (s.underway b).getLast?.getD (s.rows b.target).stored

/-- No binding writes the row. -/
def Unbound (s : DataBinder ρ) (row : ρ) : Prop := ∀ b ∈ s.bindings, b.target ≠ row

/-- Clients leave bound rows to the binder. A row is bound to one other row, with the same
bytes to begin with and no write priority, and while that is not being written. -/
def Ok (s : DataBinder ρ) : BinderStep ρ → Prop
  | .write row _ => s.Unbound row
  | .setWritePriority row _ => s.Unbound row
  | .copyInitValue _ target _ => s.Unbound target
  | .bind source target _ => source ≠ target ∧ s.Unbound target ∧
    (s.rows target).writePriority = 0 ∧ s.writers source = .idle ∧
    SameBytes (s.rows target).stored (s.rows source).stored
  | _ => True

omit [DecidableEq ρ] in
theorem Ok.keepsPriority (h : s.Ok a) : s.KeepsPriority a := by
  cases a with
  | setWritePriority row priority => exact h
  | bind source target forceReport => exact h.2.2.1
  | _ => trivial

omit [DecidableEq ρ] in
theorem ok_of_own (ha : a.Own) : s.Ok a := by
  cases a with
  | write | setWritePriority | copyInitValue | bind => exact absurd ha id
  | _ => trivial

/-- Each bound row has one source, and will have its bytes. -/
structure Synced (s : DataBinder ρ) : Prop where
  ne : ∀ b ∈ s.bindings, b.source ≠ b.target
  unique : ∀ b ∈ s.bindings, ∀ c ∈ s.bindings, b.target = c.target → b = c
  content : ∀ b ∈ s.bindings, SameBytes (s.arriving b) (s.rows b.source).stored

variable {payload : List UInt8} {queue : List (Binding ρ × List UInt8)} {worker : Option ρ}

/-- The worker may write what is queued to the row bound. -/
theorem Inv.stored_store (hs : s.Inv) (hb : b ∈ s.bindings) (hfits : s.Fits b.target payload)
    (fresh : ℕ → ℕ → UInt8) (forceReport : Bool) :
    ((s.store fresh b.target (bindingCall payload forceReport)).rows b.target).stored = payload ∧
      (forceReport = true →
        (s.store fresh b.target (bindingCall payload forceReport)).writers b.target =
          .stored payload) := by
  have hacc : (bindingCall payload forceReport).Accepted (s.rows b.target).dataSize
      (s.rows b.target).writePriority := by
    rw [(hs.bound b hb).2]
    exact ⟨Option.some_ne_none _, hfits.1, hfits.2, UInt8.le_refl _⟩
  obtain ⟨hstored, hforced⟩ := (hs.data b.target).stored_writeBytes fresh hacc
  rw [rows_store, writers_store, if_pos rfl, if_pos rfl]
  refine ⟨hstored, fun hforce => ?_⟩
  cases hraised : ((s.rows b.target).writeBytes fresh (bindingCall payload forceReport)).raised with
  | none => exact absurd hraised (hforced hforce)
  | some n =>
    have hbuffer := (((hs.data b.target).raised_writeBytes fresh _).1 n hraised).1
    rw [RowWriter.ofRaised, hbuffer, hstored]
    rfl

theorem queuedFor_eq_nil (hs : s.Inv) (hb : b ∉ s.bindings) : queuedFor s.queue b = [] := by
  rw [queuedFor, List.map_eq_nil_iff, List.filter_eq_nil_iff]
  intro e he heq
  rw [decide_eq_true_iff] at heq
  exact hb (heq ▸ (hs.queued e he).1)

/-- After a store in a row, the rows bound to it will get what it has left there. -/
theorem arriving_store (hs : s.Inv) (hidle : s.writers row = .idle) (hne : b.target ≠ row)
    (h : SameBytes (s.arriving b) (s.rows b.source).stored) :
    SameBytes ((s.store fresh row call).arriving b)
      ((s.store fresh row call).rows b.source).stored := by
  have hqueue : (s.store fresh row call).queue = s.queue := rfl
  rw [arriving, underway, hqueue, rows_store, rows_store, writers_store, if_neg hne]
  rw [arriving, underway] at h
  by_cases hsource : b.source = row
  · rw [if_pos hsource, if_pos hsource]
    rw [hsource, hidle] at h
    obtain ⟨hsome, hnone⟩ := (hs.data row).raised_writeBytes fresh call
    cases hraised : ((s.rows row).writeBytes fresh call).raised with
    | none =>
      rw [hnone hraised]
      exact h
    | some n =>
      rw [RowWriter.ofRaised, (hsome n hraised).1, Option.getD_some, RowWriter.pending_stored,
        List.getLast?_concat, Option.getD_some]
      exact SameBytes.refl _
  · rw [if_neg hsource, if_neg hsource]
    exact h

theorem Synced.store (h : s.Synced) (hs : s.Inv) (hidle : s.writers row = .idle)
    (hrow : s.Unbound row) : (s.store fresh row call).Synced :=
  ⟨h.ne, h.unique, fun b hb => arriving_store hs hidle (hrow b hb) (h.content b hb)⟩

theorem Synced.work (h : s.Synced) (hs : s.Inv) (ht : s.step fresh .work = some t) :
    t.Synced := by
  obtain ⟨b, payload, queue, -, hqueue, hidle, rfl⟩ := work_eq_some ht
  obtain ⟨hb, hfits⟩ := hs.queued (b, payload) (hqueue ▸ List.mem_cons_self)
  have hstored := (hs.stored_store hb hfits fresh b.forceReport).1
  refine ⟨h.ne, h.unique, fun c hc => ?_⟩
  by_cases hbc : b = c
  · -- The payload of the action is what the target stores now.
    subst hbc
    have hne : b.source ≠ b.target := h.ne b hb
    have hsource := @rows_store _ _ fresh s b.target (bindingCall payload b.forceReport) b.source
    have hwriter := @writers_store _ _ fresh s b.target (bindingCall payload b.forceReport)
      b.source
    rw [if_neg hne] at hsource hwriter
    have hcontent := h.content b hb
    rw [arriving, underway, hqueue, queuedFor_cons, if_pos rfl, List.cons_append,
      List.getLast?_cons, Option.getD_some] at hcontent
    rw [arriving, underway]
    dsimp only
    rw [hsource, hwriter, hstored]
    exact hcontent
  · have hne : c.target ≠ b.target := fun heq => hbc (h.unique b hb c hc heq.symm)
    have hcontent := @arriving_store _ _ fresh s b.target (bindingCall payload b.forceReport) c
      hs hidle hne (h.content c hc)
    have hqueued : (s.store fresh b.target (bindingCall payload b.forceReport)).queue =
        (b, payload) :: queue := hqueue
    rw [arriving, underway, hqueued, queuedFor_cons, if_neg hbc] at hcontent
    exact hcontent

/-- A writer that goes on changes neither rows nor bindings. -/
theorem frame_of_writer (ha : a = .raise row ∨ a = .enqueue row ∨ a = .finish row)
    (ht : s.step fresh a = some t) :
    t.rows = s.rows ∧ t.bindings = s.bindings ∧
      ∃ writer, t.writers = Function.update s.writers row writer := by
  obtain rfl | rfl | rfl := ha
  · obtain ⟨-, -, rfl⟩ := raise_eq_some ht
    exact ⟨rfl, rfl, _, rfl⟩
  · obtain ⟨-, -, -, -, rfl⟩ := enqueue_eq_some ht
    exact ⟨rfl, rfl, _, rfl⟩
  · obtain ⟨-, -, rfl⟩ := finish_eq_some ht
    exact ⟨rfl, rfl, _, rfl⟩

theorem bindings_of_own (ht : s.step fresh a = some t) (ha : a.Own) :
    t.bindings = s.bindings := by
  cases a with
  | raise row => exact (frame_of_writer (.inl rfl) ht).2.1
  | enqueue row => exact (frame_of_writer (.inr (.inl rfl)) ht).2.1
  | finish row => exact (frame_of_writer (.inr (.inr rfl)) ht).2.1
  | work =>
    obtain ⟨b, payload, queue, -, -, -, rfl⟩ := work_eq_some ht
    rfl
  | write | setWritePriority | copyInitValue | bind => exact absurd ha id

/-- Nothing is lost or changed on the way: what is to arrive stays the same while a writer
goes on. -/
theorem Synced.of_underway (h : s.Synced) (hrows : t.rows = s.rows)
    (hbindings : t.bindings = s.bindings)
    (hlast : ∀ b ∈ s.bindings, (t.underway b).getLast? = (s.underway b).getLast?) :
    t.Synced := by
  refine ⟨hbindings ▸ h.ne, hbindings ▸ h.unique, fun b hb => ?_⟩
  rw [hbindings] at hb
  rw [arriving, hrows, hlast b hb]
  exact h.content b hb

theorem underway_raise (ht : s.step fresh (.raise row) = some t) (hb : b ∈ s.bindings) :
    t.underway b = s.underway b := by
  obtain ⟨payload, hw, rfl⟩ := raise_eq_some ht
  have hqueue : ∀ writer, (s.setWriter row writer).queue = s.queue := fun _ => rfl
  rw [underway, underway, hqueue, writers_setWriter]
  split_ifs with hsource
  · have hmem : b ∈ s.bindings.filter fun b => b.source = row :=
      List.mem_filter.mpr ⟨hb, decide_eq_true hsource⟩
    rw [hsource, hw, RowWriter.pending_raising, if_pos hmem, RowWriter.pending_stored]
  · rfl

theorem underway_finish (ht : s.step fresh (.finish row) = some t) :
    t.underway b = s.underway b := by
  obtain ⟨payload, hw, rfl⟩ := finish_eq_some ht
  have hqueue : ∀ writer, (s.setWriter row writer).queue = s.queue := fun _ => rfl
  rw [underway, underway]
  dsimp only
  rw [hqueue, writers_setWriter]
  split_ifs with hsource
  · rw [hsource, hw, RowWriter.pending_raising, if_neg List.not_mem_nil, RowWriter.pending_idle]
  · rfl

/-- A report that is enqueued moves from its writer to the end of the queue. -/
theorem getLast?_underway_enqueue (hs : s.Inv) (ht : s.step fresh (.enqueue row) = some t) :
    (t.underway b).getLast? = (s.underway b).getLast? := by
  obtain ⟨payload, c, functions, hw, rfl⟩ := enqueue_eq_some ht
  have hsource : c.source = row := ((hs.raising row payload _ hw).2 c List.mem_cons_self).2
  rw [underway, underway]
  dsimp only
  rw [writers_setWriter, queuedFor_concat]
  by_cases hbc : c = b
  · subst hbc
    rw [if_pos hsource, if_pos rfl, hsource, hw, RowWriter.pending_raising,
      RowWriter.pending_raising, if_pos List.mem_cons_self, List.getLast?_concat]
    split_ifs
    · exact List.getLast?_concat
    · rw [List.append_nil, List.getLast?_concat]
  · rw [if_neg hbc, List.append_nil]
    split_ifs with hrow
    · have hmem : b ∈ c :: functions ↔ b ∈ functions := by
        rw [List.mem_cons, or_iff_right (Ne.symm hbc)]
      rw [hrow, hw, RowWriter.pending_raising, RowWriter.pending_raising, if_congr hmem rfl rfl]
    · rfl

theorem Synced.bind (h : s.Synced) (hs : s.Inv) {source target : ρ} {forceReport : Bool}
    (hok : s.Ok (.bind source target forceReport))
    (ht : s.step fresh (.bind source target forceReport) = some t) : t.Synced := by
  obtain ⟨-, rfl⟩ := bind_eq_some ht
  obtain ⟨hne, hunbound, -, hidle, hsame⟩ := hok
  have hnew : (⟨source, target, forceReport⟩ : Binding ρ) ∉ s.bindings := fun hmem =>
    hunbound _ hmem rfl
  refine ⟨fun b hb => ?_, fun b hb c hc hbc => ?_, fun b hb => ?_⟩
  · rw [List.mem_append, List.mem_singleton] at hb
    obtain hb | rfl := hb
    · exact h.ne b hb
    · exact hne
  · rw [List.mem_append, List.mem_singleton] at hb hc
    obtain hb | rfl := hb <;> obtain hc | rfl := hc
    · exact h.unique b hb c hc hbc
    · exact absurd hbc (hunbound b hb)
    · exact absurd hbc.symm (hunbound c hc)
    · rfl
  · rw [List.mem_append, List.mem_singleton] at hb
    obtain hb | rfl := hb
    · exact h.content b hb
    · rw [arriving, underway]
      dsimp only
      rw [queuedFor_eq_nil hs hnew, hidle]
      exact hsame

theorem Synced.setWritePriority (h : s.Synced) {priority : UInt8}
    (ht : s.step fresh (.setWritePriority row priority) = some t) : t.Synced := by
  cases ht
  have hstored : ∀ other, (Function.update s.rows row
      ((s.rows row).setWritePriority priority) other).stored = (s.rows other).stored := by
    intro other
    rw [Function.update_apply]
    split_ifs with ho
    · rw [ho, MemoryRow.setWritePriority, MemoryRow.stored, MemoryRow.stored]
    · rfl
  refine ⟨h.ne, h.unique, fun b hb => ?_⟩
  rw [arriving]
  dsimp only
  rw [hstored, hstored]
  exact h.content b hb

theorem Synced.step (h : s.Synced) (hs : s.Inv) (hok : s.Ok a) (ht : s.step fresh a = some t) :
    t.Synced := by
  cases a with
  | write row call =>
    obtain ⟨hidle, rfl⟩ := write_eq_some ht
    exact h.store hs hidle hok
  | setWritePriority row priority => exact h.setWritePriority ht
  | copyInitValue source target forceReport =>
    obtain ⟨-, ⟨rfl, -⟩ | ⟨-, hidle, rfl⟩⟩ := copyInitValue_eq_some ht
    · exact h
    · exact h.store hs hidle hok
  | bind source target forceReport => exact h.bind hs hok ht
  | raise row =>
    obtain ⟨hrows, hbindings, -⟩ := frame_of_writer (.inl rfl) ht
    exact h.of_underway hrows hbindings fun b hb => congrArg _ (underway_raise ht hb)
  | enqueue row =>
    obtain ⟨hrows, hbindings, -⟩ := frame_of_writer (.inr (.inl rfl)) ht
    exact h.of_underway hrows hbindings fun b _ => getLast?_underway_enqueue hs ht
  | finish row =>
    obtain ⟨hrows, hbindings, -⟩ := frame_of_writer (.inr (.inr rfl)) ht
    exact h.of_underway hrows hbindings fun b _ => congrArg _ (underway_finish ht)
  | work => exact h.work hs ht

/-! ### Bound rows read alike -/

theorem inv_of_run {rows : ρ → MemoryRow} (hrows : ∀ row, (rows row).Data)
    {acts : List (BinderStep ρ)} (hok : Guarded (step fresh) KeepsPriority (start rows) acts)
    (hrun : run (step fresh) (start rows) acts = some s) : s.Inv :=
  hok.always (fun _ _ _ hs hok ht => hs.step hok ht) (inv_start hrows) acts s
    (List.prefix_refl acts) hrun

/-- The invariants of a run that leaves bound rows to the binder. -/
theorem synced_of_run {rows : ρ → MemoryRow} (hrows : ∀ row, (rows row).Data)
    {acts : List (BinderStep ρ)} (hok : Guarded (step fresh) Ok (start rows) acts)
    (hrun : run (step fresh) (start rows) acts = some s) : s.Inv ∧ s.Synced :=
  hok.always (J := fun s : DataBinder ρ => s.Inv ∧ s.Synced)
    (fun _ _ _ hs hok ht => ⟨hs.1.step hok.keepsPriority ht, hs.2.step hs.1 hok ht⟩)
    ⟨inv_start hrows, nofun, nofun, nofun⟩ acts s (List.prefix_refl acts) hrun

/-- Rows with nothing on its way between them read alike. -/
theorem Synced.readBytes_eq (h : s.Synced) (hs : s.Inv) (hb : b ∈ s.bindings)
    (hunderway : s.underway b = []) (dst : Option (List UInt8)) (n : ℕ) :
    (s.rows b.target).readBytes dst n = (s.rows b.source).readBytes dst n := by
  have hsame := h.content b hb
  rw [arriving, hunderway, List.getLast?_nil, Option.getD_none] at hsame
  exact hsame.readBytes_eq (hs.data _) (hs.data _) (hs.bound b hb).1.symm dst n

/-- **Bound rows agree.** In every run in which clients bind rows that agree, and leave them
to the binder then, as soon as nothing is on its way from a row to a row bound to it, both read
alike, whatever is read. -/
theorem agree_of_run {rows : ρ → MemoryRow} (hrows : ∀ row, (rows row).Data)
    {acts : List (BinderStep ρ)} (hok : Guarded (step fresh) Ok (start rows) acts)
    (hrun : run (step fresh) (start rows) acts = some s) (hb : b ∈ s.bindings)
    (hunderway : s.underway b = []) (dst : Option (List UInt8)) (n : ℕ) :
    (s.rows b.target).readBytes dst n = (s.rows b.source).readBytes dst n := by
  obtain ⟨hs, hsynced⟩ := synced_of_run hrows hok hrun
  exact hsynced.readBytes_eq hs hb hunderway dst n

/-- A byte that has been written to a row and on to the row bound to it. -/
theorem agree_of_run_byte :
    ∃ s : DataBinder ℕ, run (step fun _ _ => 255)
        (start fun _ => MemoryRow.construct 1 true .uint8)
        [.bind 0 1 true, .write 0 (bindingCall [5] false), .raise 0, .enqueue 0, .finish 0,
          .work] = some s ∧
      (s.rows 1).readBytes (some [9]) 1 = (s.rows 0).readBytes (some [9]) 1 := by
  have hrows : ∀ _ : ℕ, (MemoryRow.construct 1 true .uint8).Data := fun _ =>
    @MemoryRow.data_create _ 1 _ rfl (by decide)
  have hwrite : ∀ b ∈ ([⟨0, 1, true⟩] : List (Binding ℕ)), b.target ≠ 0 := by decide
  refine ⟨_, rfl, @agree_of_run ℕ _ (fun _ _ => 255) _ ⟨0, 1, true⟩ _ hrows
    [.bind 0 1 true, .write 0 (bindingCall [5] false), .raise 0, .enqueue 0, .finish 0, .work]
    ?_ rfl List.mem_cons_self rfl (some [9]) 1⟩
  exact .cons rfl ⟨by decide, nofun, rfl, rfl, .refl []⟩ (.cons rfl hwrite (.cons rfl trivial
    (.cons rfl trivial (.cons rfl trivial (.cons rfl trivial trivial)))))

/-- The initial value of a row is what it stores, padded with zeros to its size. -/
theorem initValue_eq {row : MemoryRow} (h : row.Data) (hpos : 0 < row.dataSize) :
    initValue fresh row =
      (row.stored ++ List.replicate row.dataSize 0).take row.dataSize := by
  have hlen : ((row.stored ++ List.replicate row.dataSize 0).take row.dataSize).length =
      row.dataSize := by
    rw [List.length_take, List.length_append, List.length_replicate]
    omega
  rw [initValue, h.represents.readBytes_eq hpos (Nat.le_refl _), Option.getD_some, blit, hlen,
    List.take_zero, List.nil_append, List.drop_of_length_le (by simp), List.append_nil]

theorem sameBytes_padded {stored : List UInt8} {n : ℕ} (h : stored.length ≤ n) :
    SameBytes ((stored ++ List.replicate n 0).take n) stored := by
  intro m
  have hpadded : (stored ++ List.replicate n 0).take n =
      stored ++ List.replicate (n - stored.length) 0 := by
    rw [List.take_append, List.take_of_length_le h, List.take_replicate,
      Nat.min_eq_left (Nat.sub_le _ _)]
  rw [hpadded, List.append_assoc, List.replicate_append_replicate, List.take_append,
    List.take_append, List.take_replicate, List.take_replicate, Nat.min_eq_left (by omega),
    Nat.min_eq_left (Nat.sub_le _ _)]

/-- What `bind` copies leaves the target with the bytes of the source, as `Ok` asks of rows
that are bound. -/
theorem sameBytes_copyInitValue (hs : s.Inv) {source target : ρ} {forceReport : Bool}
    (hpriority : (s.rows target).writePriority = 0) (hne : source ≠ target)
    (ht : s.step fresh (.copyInitValue source target forceReport) = some t) :
    SameBytes (t.rows target).stored (t.rows source).stored := by
  obtain ⟨hsize, ⟨rfl, hzero⟩ | ⟨hpos, hidle, rfl⟩⟩ := copyInitValue_eq_some ht
  · have hnil : ∀ row : MemoryRow, row.Data → row.dataSize = 0 → row.stored = [] :=
      fun row hrow h => List.eq_nil_of_length_eq_zero (Nat.le_zero.mp (h ▸ hrow.length_le))
    rw [hnil _ (hs.data source) hzero, hnil _ (hs.data target) (hsize ▸ hzero)]
    exact SameBytes.refl _
  · have hvalue : initValue fresh (s.rows source) = _ := initValue_eq (hs.data source) hpos
    have hlen : (initValue fresh (s.rows source)).length = (s.rows source).dataSize := by
      rw [hvalue, List.length_take, List.length_append, List.length_replicate]
      omega
    have hacc : (bindingCall (initValue fresh (s.rows source)) forceReport).Accepted
        (s.rows target).dataSize (s.rows target).writePriority := by
      rw [hpriority, ← hsize]
      exact ⟨Option.some_ne_none _, hpos.trans_eq hlen.symm, hlen.le, UInt8.le_refl _⟩
    rw [rows_store, rows_store, if_pos rfl, if_neg hne,
      ((hs.data target).stored_writeBytes fresh hacc).1]
    dsimp only [bindingCall, WriteCall.payload, Option.getD_some]
    rw [hvalue]
    exact sameBytes_padded (hs.data source).length_le

end DataBinder

end UtilityFramework
