import UtilityFramework.Parsers.BinaryParser
import UtilityFramework.Parsers.Json

/-!
# Enumeration tables as JSON

`parsers::enum_data_impl`: a list of items, each with a name in a field of `MAX_NAME` characters
and a value of 64 bits. A table is written as an object with its name and its items and read back
item by item; names and values are looked up from the front of the list.

`from_json` reads a value with `get<int>`, which keeps its low 32 bits, and `item_by_index` lets
the index that is the number of items through. Otherwise a table is what is read back from its
text (`EnumData.reads_back_iff`).
-/

namespace UtilityFramework

open Json

namespace EnumData

/-- `MAX_NAME`. -/
def maxName : ℕ := 256

/-- `add_item`: the name is taken up to its first zero; `none` if it does not fit, which writes
over the end of the field. -/
def addItem (t : EnumData) (name : String) (val : ℤ) : Option EnumData :=
  let chars := name.toList.takeWhile fun c => c ≠ '\x00'
  if chars.length < maxName then
    some { t with items := t.items ++ [⟨String.ofList chars, val⟩] }
  else none

/-- `item_by_index`, where the inner `none` is the result false; `none` for an access past the
end. -/
def itemByIndex (t : EnumData) (index : ℕ) : Option (Option EnumItem) :=
  if t.items.length < index then some none else t.items[index]?.map some

/-- An item in `enum_to_json`. -/
def itemToJson (item : EnumItem) : Json := obj [("name", str item.name), ("value", num item.value)]

/-- `to_json`, through `enum_to_json`: without items there is no member for them. -/
def toJson (t : EnumData) : Json :=
  if t.items.isEmpty then obj [("name", str t.name)]
  else obj [("name", str t.name), ("items", arr (t.items.map itemToJson))]

/-- The `int` an item has as its value: `get<int>`. -/
def getInt (value : Json) : Option ℤ := (value.getInteger 4).map (toSigned 4)

/-- The loop of `from_json`; `none` if the library throws or a name does not fit. -/
def addItems (t : EnumData) : List Json → Option EnumData
  | [] => some t
  | item :: rest => do
    let name ← (item.find "name").bind getString
    let val ← (item.find "value").bind getInt
    let t' ← t.addItem name val
    t'.addItems rest

/-- `from_json`: its result, and the table after it. -/
def fromJson (t : EnumData) (json : Json) : Option (Bool × EnumData) := do
  let enumName ← (json.find "name").bind getString
  if enumName = "" then return (false, t)
  else
    match json.find "items" with
    | some (arr items) =>
      let t' ← t.addItems items
      return (!t'.items.isEmpty, t')
    | _ => return (false, t)

/-- What a table can hold: names that fit their field, and values of 64 bits. -/
structure Storable (t : EnumData) : Prop where
  names : ∀ item ∈ t.items, '\x00' ∉ item.name.toList ∧ item.name.toList.length < maxName
  values : ∀ item ∈ t.items, -2 ^ 63 ≤ item.value ∧ item.value < 2 ^ 63

/-- The text of the table, read into an empty one, gives a table with the same items, in which
all lookups by name and by value, and the one by the given index, are answered the same. -/
def ReadsBackAt (t : EnumData) (name : String) (index : ℕ) : Prop :=
  ∃ t', fromJson ⟨name, []⟩ t.toJson = some (true, t') ∧ t'.items = t.items ∧
    (∀ n, t'.itemByName n = t.itemByName n) ∧ (∀ v, t'.itemByVal v = t.itemByVal v) ∧
      ∃ answer, t.itemByIndex index = some answer ∧ t'.itemByIndex index = some answer

/-! ### Reading items back -/

variable {t : EnumData}

theorem addItem_of_fits {name : String} (val : ℤ) (hnul : '\x00' ∉ name.toList)
    (hfits : name.toList.length < maxName) :
    t.addItem name val = some { t with items := t.items ++ [⟨name, val⟩] } := by
  have hchars : (name.toList.takeWhile fun c => c ≠ '\x00') = name.toList := by
    refine List.takeWhile_eq_self_iff.mpr fun c hc => ?_
    exact decide_eq_true fun hzero => hnul (hzero ▸ hc)
  rw [addItem]
  simp only [hchars, if_pos hfits, String.ofList_toList]

/-- The low 32 bits of a number are the number if it has no more. -/
theorem toSigned_four_eq_self_iff (n : ℤ) :
    toSigned 4 (n % 2 ^ 32).toNat = n ↔ -2 ^ 31 ≤ n ∧ n < 2 ^ 31 := by
  rw [toSigned]
  norm_num
  split <;> omega

/-- The items of a table, written and read: the values keep their low 32 bits. -/
theorem addItems_map_itemToJson (items : List EnumItem)
    (hnames : ∀ item ∈ items, '\x00' ∉ item.name.toList ∧ item.name.toList.length < maxName)
    (t : EnumData) :
    t.addItems (items.map itemToJson) = some { t with
      items := t.items ++ items.map fun item =>
        ⟨item.name, toSigned 4 (item.value % 2 ^ 32).toNat⟩ } := by
  induction items generalizing t with
  | nil =>
    rw [List.map_nil, List.map_nil, List.append_nil]
    rfl
  | cons item items ih =>
    obtain ⟨hnul, hfits⟩ := hnames item List.mem_cons_self
    have hname : ((itemToJson item).find "name").bind getString = some item.name := rfl
    have hvalue : ((itemToJson item).find "value").bind getInt =
        some (toSigned 4 (item.value % 2 ^ 32).toNat) := rfl
    rw [List.map_cons, addItems, hname, hvalue]
    simp only [Option.bind_eq_bind, Option.bind_some, addItem_of_fits _ hnul hfits]
    rw [ih fun i hi => hnames i (List.mem_cons_of_mem item hi)]
    simp only [List.append_assoc, List.map_cons, List.singleton_append]

/-- What is read back from the text of a table. -/
theorem fromJson_toJson (hname : t.name ≠ "") (hitems : t.items ≠ [])
    (hnames : ∀ item ∈ t.items, '\x00' ∉ item.name.toList ∧ item.name.toList.length < maxName)
    (name : String) :
    fromJson ⟨name, []⟩ t.toJson = some (true, ⟨name, t.items.map fun item =>
      ⟨item.name, toSigned 4 (item.value % 2 ^ 32).toNat⟩⟩) := by
  have hjson : t.toJson =
      obj [("name", str t.name), ("items", arr (t.items.map itemToJson))] := by
    rw [toJson, if_neg (by rwa [List.isEmpty_iff])]
  have hfindName : (t.toJson.find "name").bind getString = some t.name := by
    rw [hjson]
    rfl
  have hfindItems : t.toJson.find "items" = some (arr (t.items.map itemToJson)) := by
    rw [hjson]
    rfl
  rw [fromJson, hfindName]
  simp only [Option.bind_eq_bind, Option.bind_some, if_neg hname, hfindItems,
    addItems_map_itemToJson t.items hnames, List.nil_append]
  rw [show (t.items.map _).isEmpty = false from by simpa using hitems]
  rfl

/-- The values that are read back are those that were written if they have 32 bits. -/
theorem map_toSigned_eq_self_iff (items : List EnumItem) :
    (items.map fun item => ⟨item.name, toSigned 4 (item.value % 2 ^ 32).toNat⟩) = items ↔
      ∀ item ∈ items, -2 ^ 31 ≤ item.value ∧ item.value < 2 ^ 31 := by
  induction items with
  | nil => simp
  | cons item items ih =>
    have hitem : (⟨item.name, toSigned 4 (item.value % 2 ^ 32).toNat⟩ : EnumItem) = item ↔
        -2 ^ 31 ≤ item.value ∧ item.value < 2 ^ 31 := by
      rw [← toSigned_four_eq_self_iff, EnumItem.mk.injEq]
      exact and_iff_right rfl
    rw [List.map_cons, List.cons.injEq, ih, hitem, List.forall_mem_cons]

/-- An index is answered unless it is the number of items. -/
theorem itemByIndex_defined_iff (index : ℕ) :
    (∃ answer, t.itemByIndex index = some answer) ↔ index ≠ t.items.length := by
  rw [itemByIndex]
  split
  · exact iff_of_true ⟨none, rfl⟩ (by omega)
  · rename_i hle
    constructor
    · rintro ⟨answer, hanswer⟩ rfl
      rw [List.getElem?_eq_none le_rfl] at hanswer
      cases hanswer
    · intro hne
      have hlt : index < t.items.length := by omega
      exact ⟨some t.items[index], by rw [List.getElem?_eq_getElem hlt]; rfl⟩

/-- **When tables are read back.** A table is what is read from its text, and answers the same,
precisely if its values have 32 bits and the index asked for is not the number of items. -/
theorem reads_back_iff (hname : t.name ≠ "") (hitems : t.items ≠ []) (ht : t.Storable)
    (name : String) (index : ℕ) :
    t.ReadsBackAt name index ↔
      (∀ item ∈ t.items, -2 ^ 31 ≤ item.value ∧ item.value < 2 ^ 31) ∧
        index ≠ t.items.length := by
  rw [← map_toSigned_eq_self_iff, ← itemByIndex_defined_iff]
  have hread := fromJson_toJson hname hitems ht.names name
  constructor
  · rintro ⟨t', hjson, hsame, -, -, answer, hanswer, -⟩
    obtain ⟨-, rfl⟩ := Prod.mk.inj (Option.some.inj (hread.symm.trans hjson))
    exact ⟨hsame, answer, hanswer⟩
  · rintro ⟨hsame, answer, hanswer⟩
    rw [hsame] at hread
    exact ⟨_, hread, rfl, fun _ => rfl, fun _ => rfl, answer, hanswer, hanswer⟩

end EnumData

/-- A table with the smallest value of 32 bits and an item name that occurs twice. -/
theorem EnumData.reads_back_iff_repeated :
    EnumData.ReadsBackAt ⟨"E", [⟨"a", -2147483648⟩, ⟨"a", 5⟩]⟩ "" 1 ↔
      (∀ item ∈ [(⟨"a", -2147483648⟩ : EnumItem), ⟨"a", 5⟩],
        -2 ^ 31 ≤ item.value ∧ item.value < 2 ^ 31) ∧ 1 ≠ 2 :=
  EnumData.reads_back_iff (by decide) (by decide) ⟨by decide, by decide⟩ "" 1

/-- A value of 33 bits is not read back, and the index after the last item is not answered. -/
theorem EnumData.not_reads_back :
    ¬ EnumData.ReadsBackAt ⟨"E", [⟨"a", 2147483648⟩]⟩ "" 0 ∧
      ¬ EnumData.ReadsBackAt ⟨"E", [⟨"a", 1⟩]⟩ "" 1 := by
  constructor
  · rintro ⟨t', hjson, hsame, -⟩
    have hread := EnumData.fromJson_toJson (t := ⟨"E", [⟨"a", 2147483648⟩]⟩) (by decide) (by decide)
      (by decide) ""
    obtain ⟨-, rfl⟩ := Prod.mk.inj (Option.some.inj (hread.symm.trans hjson))
    exact absurd hsame (by decide)
  · rintro ⟨t', -, -, -, -, answer, hanswer, -⟩
    cases hanswer

end UtilityFramework
