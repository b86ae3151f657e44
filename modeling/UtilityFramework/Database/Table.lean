import UtilityFramework.Database.MemoryRow
import UtilityFramework.Utils.CallbackHandler

/-!
# Tables and their data subscriptions

`utils::database::table_base`: a map from keys to rows, and the callbacks subscribed to the
data of every row of the table. Each row has a callback handler of its own; the table
subscribes its data callbacks to a row it adds and takes them off a row it removes.

`TableState` is a table with its history: the rows removed from it and the successful
subscriptions and unsubscriptions, from which `TableState.Subscribed` reads who is
subscribed. `unsubscribe_data_callback` takes the callback off the rows but leaves it in
`m_data_callbacks`, where `callback_handler::remove_callback` erases; `Stale` names the
callbacks left behind so. `TableState.KeepsStaleOff` is the exact condition on a step under
which they do no harm.
-/

namespace UtilityFramework

open Transition

/-! ### Keys -/

/-- `core::database::key`. Two keys are equal when their lengths and their first
`min (length, 16)` bytes are, so a key is its length with these bytes. -/
structure Key where
  length : ℕ
  data : List UInt8
  length_data : data.length = min length 16
  deriving DecidableEq

/-! ### The table -/

/-- A row of a table: its key, its data and its data callbacks. -/
structure TableRow (κ : Type*) where
  key : Key
  row : MemoryRow
  handler : CallbackHandler κ

/-- `utils::database::table_base`, with the rows of a memory table. -/
structure Table (κ : Type*) where
  rows : List (TableRow κ)
  dataCallbacks : List κ
  keys_nodup : (rows.map TableRow.key).Nodup

section Table

variable {κ : Type*} [DecidableEq κ]

namespace TableRow

/-- `row_base::subscribe_callback`, its result dropped. -/
def subscribeCallback (row : TableRow κ) (c : κ) : TableRow κ :=
  { row with handler := (row.handler.addCallback c).1 }

/-- `row_base::unsubscribe_callback`, its result dropped. -/
def unsubscribeCallback (row : TableRow κ) (c : κ) : TableRow κ :=
  { row with handler := (row.handler.removeCallback c).1 }

theorem handler_foldl_subscribeCallback (cs : List κ) (row : TableRow κ) :
    (cs.foldl subscribeCallback row).handler =
      cs.foldl (fun h c => (h.addCallback c).1) row.handler := by
  induction cs generalizing row with
  | nil => rfl
  | cons c cs ih => exact ih _

theorem handler_foldl_unsubscribeCallback (cs : List κ) (row : TableRow κ) :
    (cs.foldl unsubscribeCallback row).handler =
      cs.foldl (fun h c => (h.removeCallback c).1) row.handler := by
  induction cs generalizing row with
  | nil => rfl
  | cons c cs ih => exact ih _

theorem key_foldl_subscribeCallback (cs : List κ) (row : TableRow κ) :
    (cs.foldl subscribeCallback row).key = row.key := by
  induction cs generalizing row with
  | nil => rfl
  | cons c cs ih => exact ih _

end TableRow

namespace Table

/-- A table without rows. -/
def empty : Table κ := ⟨[], [], List.nodup_nil⟩

/-- `add_row`. The row is created by `memory_row::create`, and every data callback of the
table is subscribed to it. -/
def addRow (table : Table κ) (key : Key) (dataSize : ℕ) (type : TypeEnum) : Table κ × Bool :=
  if dataSize = 0 ∧ type ≠ .emptyType then (table, false)
  else if hkey : key ∈ table.rows.map TableRow.key then (table, false)
  else
    match MemoryRow.create dataSize type with
    | none => (table, false)
    | some row =>
      let added := table.dataCallbacks.foldl TableRow.subscribeCallback
        ⟨key, row, CallbackHandler.empty⟩
      ({ table with
        rows := table.rows ++ [added]
        keys_nodup := by
          rw [List.map_append, List.map_singleton, TableRow.key_foldl_subscribeCallback]
          exact List.nodup_append_comm.mp (List.nodup_cons.mpr ⟨hkey, table.keys_nodup⟩) }, true)

/-- `remove_row`: the row handed to the caller, its table callbacks taken off. -/
def removeRow (table : Table κ) (key : Key) : Table κ × Option (TableRow κ) :=
  match table.rows.find? fun row => row.key = key with
  | none => (table, none)
  | some row =>
    ({ table with
      rows := table.rows.eraseP fun row => row.key = key
      keys_nodup := table.keys_nodup.sublist (List.eraseP_sublist.map TableRow.key) },
      some (table.dataCallbacks.foldl TableRow.unsubscribeCallback row))

/-- `subscribe_data_callback`: true in every case. -/
def subscribeDataCallback (table : Table κ) (c : κ) : Table κ × Bool :=
  if c ∈ table.dataCallbacks then (table, true)
  else
    ({ rows := table.rows.map fun row => row.subscribeCallback c
       dataCallbacks := table.dataCallbacks ++ [c]
       keys_nodup := by rw [List.map_map]; exact table.keys_nodup }, true)

/-- `unsubscribe_data_callback`. The callback stays in `m_data_callbacks`. -/
def unsubscribeDataCallback (table : Table κ) (c : κ) : Table κ × Bool :=
  if c ∈ table.dataCallbacks then
    ({ table with
      rows := table.rows.map fun row => row.unsubscribeCallback c
      keys_nodup := by rw [List.map_map]; exact table.keys_nodup }, true)
  else (table, false)

end Table

/-! ### Runs of a table -/

/-- The operations on a table. -/
inductive TableOp (κ : Type*)
  | addRow (key : Key) (dataSize : ℕ) (type : TypeEnum)
  | removeRow (key : Key)
  | subscribeDataCallback (c : κ)
  | unsubscribeDataCallback (c : κ)

/-- A table with its history: the rows removed, and the successful subscriptions (`true`)
and unsubscriptions (`false`), the newest first. -/
structure TableState (κ : Type*) where
  table : Table κ
  removed : List (TableRow κ)
  log : List (Bool × κ)

namespace TableState

/-- A new table. -/
def init : TableState κ := ⟨Table.empty, [], []⟩

/-- One operation. Every operation is enabled in every state. -/
def step (s : TableState κ) : TableOp κ → Option (TableState κ)
  | .addRow key dataSize type =>
    some { s with table := (s.table.addRow key dataSize type).1 }
  | .removeRow key =>
    let r := s.table.removeRow key
    some { s with table := r.1, removed := s.removed ++ r.2.toList }
  | .subscribeDataCallback c =>
    let r := s.table.subscribeDataCallback c
    some { s with table := r.1, log := if r.2 then (true, c) :: s.log else s.log }
  | .unsubscribeDataCallback c =>
    let r := s.table.unsubscribeDataCallback c
    some { s with table := r.1, log := if r.2 then (false, c) :: s.log else s.log }

/-- The last successful subscription or unsubscription of `c` was a subscription. -/
def Subscribed (s : TableState κ) (c : κ) : Prop :=
  s.log.find? (fun e => e.2 = c) = some (true, c)

instance (s : TableState κ) (c : κ) : Decidable (s.Subscribed c) :=
  inferInstanceAs (Decidable (_ = _))

/-- The callbacks of every row of the table are those subscribed to the table, and a
removed row has none. -/
def InSync (s : TableState κ) : Prop :=
  (∀ row ∈ s.table.rows, ∀ c, c ∈ row.handler ↔ s.Subscribed c) ∧
    ∀ row ∈ s.removed, ∀ c, c ∉ row.handler

/-- `c` has been unsubscribed but is still in the list of data callbacks. -/
def Stale (s : TableState κ) (c : κ) : Prop :=
  c ∈ s.table.dataCallbacks ∧ ¬s.Subscribed c

/-- A new row is added only while no callback is stale, and a stale callback is subscribed
again only while the table has no rows. -/
def KeepsStaleOff (s : TableState κ) : TableOp κ → Prop
  | .addRow key dataSize type =>
    (dataSize ≠ 0 ∨ type = .emptyType) → (∀ row ∈ s.table.rows, row.key ≠ key) →
      ∀ c, ¬s.Stale c
  | .subscribeDataCallback c => s.Stale c → s.table.rows = []
  | .removeRow _ | .unsubscribeDataCallback _ => True

/-! ### What an operation does -/

variable {s t : TableState κ} {c d : κ}

@[simp] theorem subscribed_cons (table : Table κ) (removed : List (TableRow κ))
    (log : List (Bool × κ)) (b : Bool) :
    (⟨table, removed, (b, c) :: log⟩ : TableState κ).Subscribed d ↔
      if d = c then b = true else (⟨table, removed, log⟩ : TableState κ).Subscribed d := by
  rw [Subscribed, List.find?_cons]
  by_cases hd : d = c
  · subst hd
    simp
  · simp [hd, Ne.symm hd, Subscribed]

end TableState

/-- A row is added exactly when its key is new and its size is admissible; its callbacks
are the data callbacks of the table. -/
theorem Table.addRow_cases (table : Table κ) (key : Key) (dataSize : ℕ) (type : TypeEnum) :
    ((table.addRow key dataSize type).1 = table ∧
        ((dataSize = 0 ∧ type ≠ .emptyType) ∨ ∃ row ∈ table.rows, row.key = key)) ∨
      ((dataSize ≠ 0 ∨ type = .emptyType) ∧ (∀ row ∈ table.rows, row.key ≠ key) ∧
        (table.addRow key dataSize type).1.dataCallbacks = table.dataCallbacks ∧
        ∃ added : TableRow κ, (∀ c, c ∈ added.handler ↔ c ∈ table.dataCallbacks) ∧
          (table.addRow key dataSize type).1.rows = table.rows ++ [added]) := by
  rw [Table.addRow]
  split
  · rename_i hsize
    exact .inl ⟨rfl, .inl hsize⟩
  · rename_i hsize
    split
    · rename_i hkey
      exact .inl ⟨rfl, .inr (List.mem_map.mp hkey)⟩
    · rename_i hkey
      have hok : dataSize ≠ 0 ∨ type = .emptyType := by
        by_contra hcon
        rw [not_or, not_not] at hcon
        exact hsize hcon
      split
      · rename_i hcreate
        rw [MemoryRow.create, if_neg hsize] at hcreate
        split at hcreate <;> cases hcreate
      · refine .inr ⟨hok, fun row hrow hk => hkey (List.mem_map.mpr ⟨row, hrow, hk⟩), rfl, _,
          fun c => ?_, rfl⟩
        rw [TableRow.handler_foldl_subscribeCallback, CallbackHandler.mem_foldl_addCallback]
        exact or_iff_right (CallbackHandler.not_mem_empty c)

/-- Removing a row only takes rows away, and takes the data callbacks off the row. -/
theorem Table.removeRow_spec (table : Table κ) (key : Key) :
    (table.removeRow key).1.dataCallbacks = table.dataCallbacks ∧
      (∀ row ∈ (table.removeRow key).1.rows, row ∈ table.rows) ∧
      ∀ removed ∈ (table.removeRow key).2, ∃ row ∈ table.rows,
        ∀ c, c ∈ removed.handler ↔ c ∈ row.handler ∧ c ∉ table.dataCallbacks := by
  rw [Table.removeRow]
  split
  · exact ⟨rfl, fun _ h => h, fun _ h => by cases h⟩
  · rename_i row hrow
    refine ⟨rfl, fun _ h => List.eraseP_subset h, fun removed h => ?_⟩
    obtain rfl : table.dataCallbacks.foldl TableRow.unsubscribeCallback row = removed :=
      Option.some.inj h
    refine ⟨row, List.mem_of_find?_eq_some hrow, fun c => ?_⟩
    rw [TableRow.handler_foldl_unsubscribeCallback, CallbackHandler.mem_foldl_removeCallback]

namespace TableState

variable {s t : TableState κ} {c d : κ}

/-! ### Steps and runs -/

/-- What holds whatever the operations: the callbacks subscribed to the table and those of
its rows are data callbacks of the table, and a removed row has no callbacks. -/
structure Tracked (s : TableState κ) : Prop where
  subscribed_mem : ∀ c, s.Subscribed c → c ∈ s.table.dataCallbacks
  handler_mem : ∀ row ∈ s.table.rows, ∀ c ∈ row.handler, c ∈ s.table.dataCallbacks
  removed : ∀ row ∈ s.removed, ∀ c, c ∉ row.handler

theorem tracked_init : (init : TableState κ).Tracked where
  subscribed_mem c h := by simp [Subscribed, init] at h
  handler_mem row h := by simp [init, Table.empty] at h
  removed row h := by simp [init] at h

theorem Tracked.step (h : s.Tracked) (op : TableOp κ) (ht : s.step op = some t) :
    t.Tracked := by
  cases op with
  | addRow key dataSize type =>
    rw [TableState.step, Option.some.injEq] at ht
    subst ht
    obtain ⟨heq, -⟩ | ⟨-, -, hcb, added, hadded, hrows⟩ :=
      s.table.addRow_cases key dataSize type
    · exact heq.symm ▸ h
    · refine ⟨fun c hc => hcb.symm ▸ h.subscribed_mem c hc, fun row hrow c hc => ?_, h.removed⟩
      rw [hrows, List.mem_append, List.mem_singleton] at hrow
      rw [hcb]
      obtain hrow | rfl := hrow
      · exact h.handler_mem row hrow c hc
      · exact (hadded c).mp hc
  | removeRow key =>
    rw [TableState.step, Option.some.injEq] at ht
    subst ht
    obtain ⟨hcb, hrows, hremoved⟩ := s.table.removeRow_spec key
    refine ⟨fun c hc => hcb.symm ▸ h.subscribed_mem c hc,
      fun row hrow c hc => hcb.symm ▸ h.handler_mem row (hrows row hrow) c hc,
      fun row hrow c hc => ?_⟩
    rw [List.mem_append, Option.mem_toList] at hrow
    obtain hrow | hrow := hrow
    · exact h.removed row hrow c hc
    · obtain ⟨old, hold, hiff⟩ := hremoved row hrow
      obtain ⟨hcold, hnot⟩ := (hiff c).mp hc
      exact hnot (h.handler_mem old hold c hcold)
  | subscribeDataCallback c =>
    rw [TableState.step, Option.some.injEq] at ht
    subst ht
    rw [Table.subscribeDataCallback]
    split
    · rename_i hc
      refine ⟨fun d hd => ?_, h.handler_mem, h.removed⟩
      rw [if_pos rfl, subscribed_cons] at hd
      split at hd
      · rename_i hdc
        exact hdc ▸ hc
      · exact h.subscribed_mem d hd
    · refine ⟨fun d hd => ?_, fun row hrow d hd => ?_, h.removed⟩
      · rw [if_pos rfl, subscribed_cons] at hd
        rw [List.mem_append, List.mem_singleton]
        split at hd
        · exact .inr ‹_›
        · exact .inl (h.subscribed_mem d hd)
      · obtain ⟨old, hold, rfl⟩ := List.mem_map.mp hrow
        rw [List.mem_append, List.mem_singleton]
        exact (CallbackHandler.mem_addCallback.mp hd).imp_left (h.handler_mem old hold d)
  | unsubscribeDataCallback c =>
    rw [TableState.step, Option.some.injEq] at ht
    subst ht
    rw [Table.unsubscribeDataCallback]
    split
    · refine ⟨fun d hd => ?_, fun row hrow d hd => ?_, h.removed⟩
      · rw [if_pos rfl, subscribed_cons] at hd
        split at hd
        · cases hd
        · exact h.subscribed_mem d hd
      · obtain ⟨old, hold, rfl⟩ := List.mem_map.mp hrow
        exact h.handler_mem old hold d (CallbackHandler.mem_removeCallback.mp hd).1
    · exact h

/-- Adding a row keeps the callbacks in step exactly when no stale callback reaches it. -/
theorem inSync_addRow_iff (hT : s.Tracked) (hS : s.InSync) (key : Key) (dataSize : ℕ)
    (type : TypeEnum) (ht : s.step (.addRow key dataSize type) = some t) :
    t.InSync ↔ s.KeepsStaleOff (.addRow key dataSize type) := by
  rw [TableState.step, Option.some.injEq] at ht
  subst ht
  obtain ⟨heq, hno⟩ | ⟨hsize, hkey, hcb, added, hadded, hrows⟩ :=
    s.table.addRow_cases key dataSize type
  · refine iff_of_true (heq.symm ▸ hS) fun hsize hkey => ?_
    obtain ⟨hzero, hne⟩ | ⟨row, hrow, hk⟩ := hno
    · exact absurd hsize (not_or.mpr ⟨not_not.mpr hzero, hne⟩)
    · exact absurd hk (hkey row hrow)
  · constructor
    · rintro ⟨hsync, -⟩ - - c ⟨hc, hnot⟩
      refine hnot ((hsync added ?_ c).mp ((hadded c).mpr hc))
      rw [hrows]
      exact List.mem_append_right _ (List.mem_singleton_self added)
    · intro hok
      refine ⟨fun row hrow c => ?_, hS.2⟩
      rw [hrows, List.mem_append, List.mem_singleton] at hrow
      obtain hrow | rfl := hrow
      · exact hS.1 row hrow c
      · rw [hadded]
        refine ⟨fun hc => ?_, hT.subscribed_mem c⟩
        by_contra hnot
        exact hok hsize hkey c ⟨hc, hnot⟩

/-- Subscribing keeps the callbacks in step unless the callback is stale and there are rows
that would have to get it. -/
theorem inSync_subscribe_iff (hS : s.InSync) (c : κ)
    (ht : s.step (.subscribeDataCallback c) = some t) :
    t.InSync ↔ s.KeepsStaleOff (.subscribeDataCallback c) := by
  rw [TableState.step, Option.some.injEq] at ht
  subst ht
  rw [Table.subscribeDataCallback]
  split
  · -- Already in the list: the rows are left alone.
    rename_i hc
    rw [if_pos rfl]
    constructor
    · rintro ⟨hsync, -⟩ ⟨-, hnot⟩
      refine List.eq_nil_iff_forall_not_mem.mpr fun row hrow => hnot ?_
      rw [← hS.1 row hrow c, hsync row hrow c, subscribed_cons, if_pos rfl]
    · intro hok
      refine ⟨fun row hrow d => ?_, hS.2⟩
      rw [subscribed_cons, hS.1 row hrow d]
      split
      · rename_i hdc
        subst hdc
        refine iff_of_true ?_ rfl
        by_contra hnot
        rw [hok ⟨hc, hnot⟩] at hrow
        exact List.not_mem_nil hrow
      · exact Iff.rfl
  · rename_i hc
    refine iff_of_true ⟨fun row hrow d => ?_, hS.2⟩ fun hstale => absurd hstale.1 hc
    obtain ⟨old, hold, rfl⟩ := List.mem_map.mp hrow
    rw [if_pos rfl, subscribed_cons, TableRow.subscribeCallback,
      CallbackHandler.mem_addCallback, hS.1 old hold d]
    split
    · exact iff_of_true (.inr ‹_›) rfl
    · exact or_iff_left ‹_›

/-- Unsubscribing takes the callback off every row. -/
theorem InSync.unsubscribe (hS : s.InSync) (c : κ)
    (ht : s.step (.unsubscribeDataCallback c) = some t) : t.InSync := by
  rw [TableState.step, Option.some.injEq] at ht
  subst ht
  rw [Table.unsubscribeDataCallback]
  split
  · refine ⟨fun row hrow d => ?_, hS.2⟩
    obtain ⟨old, hold, rfl⟩ := List.mem_map.mp hrow
    rw [if_pos rfl, subscribed_cons, TableRow.unsubscribeCallback,
      CallbackHandler.mem_removeCallback, hS.1 old hold d]
    split
    · exact iff_of_false (fun h => h.2 ‹_›) Bool.false_ne_true
    · exact and_iff_left ‹_›
  · exact hS

theorem InSync.removeRow (hT : t.Tracked) (hS : s.InSync) (key : Key)
    (ht : s.step (.removeRow key) = some t) : t.InSync := by
  rw [TableState.step, Option.some.injEq] at ht
  subst ht
  refine ⟨fun row hrow c => ?_, hT.removed⟩
  exact hS.1 row ((s.table.removeRow_spec key).2.1 row hrow) c

/-- A step from a table in step keeps it so exactly when it keeps stale callbacks off. -/
theorem inSync_step_iff (hT : s.Tracked) (hS : s.InSync) (op : TableOp κ)
    (ht : s.step op = some t) : t.InSync ↔ s.KeepsStaleOff op := by
  cases op with
  | addRow key dataSize type => exact inSync_addRow_iff hT hS key dataSize type ht
  | removeRow key => exact iff_of_true (hS.removeRow (hT.step _ ht) key ht) trivial
  | subscribeDataCallback c => exact inSync_subscribe_iff hS c ht
  | unsubscribeDataCallback c => exact iff_of_true (hS.unsubscribe c ht) trivial

theorem inSync_init : (init : TableState κ).InSync :=
  ⟨fun _ h => absurd h List.not_mem_nil, fun _ h => absurd h List.not_mem_nil⟩

/-- **Table data subscriptions.** Over any run of a table, after each operation the rows
have exactly the callbacks subscribed to the table and removed rows have none, if and only
if no row is added while a callback is stale and no stale callback is subscribed again
while the table has rows. -/
theorem inSync_throughout_iff (ops : List (TableOp κ)) :
    Always step InSync (init : TableState κ) ops ↔ Guarded step KeepsStaleOff init ops :=
  always_iff_guarded ops (fun _ op _ hT => hT.step op)
    (fun _ op _ hT hS => inSync_step_iff hT hS op) tracked_init inSync_init

/-- A row added after an unsubscription is subscribed to the stale callback. -/
theorem inSync_fails_after_unsubscribe :
    ∃ s : TableState ℕ,
      run step init [.subscribeDataCallback 0, .unsubscribeDataCallback 0,
        .addRow ⟨1, [7], rfl⟩ 4 .uint32] = some s ∧
      ¬s.Subscribed 0 ∧ ∃ row ∈ s.table.rows, 0 ∈ row.handler :=
  ⟨_, rfl, by decide, _, List.mem_singleton_self _, by decide⟩

end TableState

end Table

end UtilityFramework
