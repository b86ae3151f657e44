import UtilityFramework.Database.MemoryRow

/-!
# Data sets

The tables of a data set and the rows of a table, by numeric keys. Both are kept in
`std::unordered_map`s, so that they are iterated in an order of their own; here they are
lists in that order, and a lookup finds the entry with the key.
-/

namespace UtilityFramework

/-- In a map, an entry is found by its key. -/
theorem find?_fst_of_mem {κ β : Type*} [DecidableEq κ] {l : List (κ × β)} {e : κ × β}
    (hnodup : (l.map Prod.fst).Nodup) (h : e ∈ l) : l.find? (fun x => x.1 = e.1) = some e := by
  obtain ⟨before, after, rfl⟩ := List.append_of_mem h
  rw [List.map_append, List.map_cons, List.nodup_append] at hnodup
  have hbefore : before.find? (fun x => x.1 = e.1) = none := by
    rw [List.find?_eq_none]
    intro x hx hkey
    have hkey' : x.1 = e.1 := by simpa using hkey
    exact hnodup.2.2 x.1 (List.mem_map_of_mem hx) e.1 List.mem_cons_self hkey'
  rw [List.find?_append, hbefore, Option.none_or, List.find?_cons_of_pos (by simp)]

/-- A table of a data set: its key, and its rows with theirs. -/
structure DataTable where
  key : UInt32
  rows : List (UInt32 × MemoryRow)
  keys_nodup : (rows.map Prod.fst).Nodup
  deriving DecidableEq

/-- A data set. -/
abbrev DataSet := List DataTable

namespace DataTable

/-- `table_base::query_row`. -/
def queryRow (table : DataTable) (key : UInt32) : Option MemoryRow :=
  (table.rows.find? fun e => e.1 = key).map Prod.snd

/-- The table after the row of a key has become `row`. -/
def setRow (table : DataTable) (key : UInt32) (row : MemoryRow) : DataTable :=
  { table with
    rows := table.rows.map fun e => (e.1, if e.1 = key then row else e.2)
    keys_nodup := by
      rw [List.map_map]
      exact table.keys_nodup }

theorem queryRow_of_mem {table : DataTable} {e : UInt32 × MemoryRow} (h : e ∈ table.rows) :
    table.queryRow e.1 = some e.2 := by
  rw [queryRow, find?_fst_of_mem table.keys_nodup h]
  rfl

theorem queryRow_setRow (table : DataTable) (key : UInt32) (row : MemoryRow) (key' : UInt32) :
    (table.setRow key row).queryRow key' =
      if key' = key then (table.queryRow key).map fun _ => row else table.queryRow key' := by
  simp only [setRow, queryRow, List.find?_map, Function.comp_def]
  cases hf : table.rows.find? fun e => e.1 = key' with
  | none =>
    split_ifs with h
    · rw [← h, hf]
      rfl
    · rfl
  | some e =>
    have hkey : e.1 = key' := by simpa using List.find?_some hf
    split_ifs with h
    · subst h
      simp [hf, hkey]
    · simp [hkey, h]

end DataTable

namespace DataSet

/-- `DataSet::TryGet`. -/
def tryGet (ds : DataSet) (key : UInt32) : Option DataTable := ds.find? fun t => t.key = key

/-- The row of a table. -/
def row? (ds : DataSet) (table key : UInt32) : Option MemoryRow :=
  (ds.tryGet table).bind fun t => t.queryRow key

/-- The data set after a row of a table has become `row`. -/
def setRow (ds : DataSet) (table key : UInt32) (row : MemoryRow) : DataSet :=
  ds.map fun t => if t.key = table then t.setRow key row else t

theorem tryGet_setRow (ds : DataSet) (table key : UInt32) (row : MemoryRow) (table' : UInt32) :
    (ds.setRow table key row).tryGet table' =
      (ds.tryGet table').map fun t => if t.key = table then t.setRow key row else t := by
  have hkey (t : DataTable) : (if t.key = table then t.setRow key row else t).key = t.key := by
    split <;> rfl
  rw [tryGet, setRow, List.find?_map, tryGet]
  congr 1
  simp only [Function.comp_def, hkey]

theorem row?_setRow (ds : DataSet) (table key : UInt32) (row : MemoryRow)
    (table' key' : UInt32) :
    (ds.setRow table key row).row? table' key' =
      if table' = table ∧ key' = key then (ds.row? table key).map fun _ => row
      else ds.row? table' key' := by
  rw [row?, tryGet_setRow, row?, row?]
  cases ht : ds.tryGet table' with
  | none =>
    split_ifs with h
    · rw [h.1] at ht
      rw [ht]
      rfl
    · rfl
  | some t =>
    have hkey : t.key = table' := by simpa using List.find?_some ht
    simp only [Option.map_some, Option.bind_some, hkey]
    by_cases htab : table' = table
    · subst htab
      rw [if_pos rfl, DataTable.queryRow_setRow, ht, Option.bind_some]
      split_ifs with h₁ h₂ h₂ <;> simp_all
    · rw [if_neg htab, if_neg fun h => htab h.1]

/-- The keys of the tables. -/
def tableKeys (ds : DataSet) : List UInt32 := ds.map DataTable.key

/-- The rows of the tables, each by the two keys. -/
def rowKeys (ds : DataSet) : List (UInt32 × UInt32) :=
  ds.flatMap fun t => t.rows.map fun e => (t.key, e.1)

@[simp] theorem tableKeys_setRow (ds : DataSet) (table key : UInt32) (row : MemoryRow) :
    (ds.setRow table key row).tableKeys = ds.tableKeys := by
  rw [tableKeys, setRow, List.map_map]
  refine List.map_congr_left fun t _ => ?_
  rw [Function.comp_apply]
  split <;> rfl

@[simp] theorem rowKeys_setRow (ds : DataSet) (table key : UInt32) (row : MemoryRow) :
    (ds.setRow table key row).rowKeys = ds.rowKeys := by
  rw [rowKeys, setRow, List.flatMap_map]
  refine List.flatMap_congr fun t _ => ?_
  split
  · rw [DataTable.setRow, List.map_map]
    rfl
  · rfl

end DataSet

end UtilityFramework
