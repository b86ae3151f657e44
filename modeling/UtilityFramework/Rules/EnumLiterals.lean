import UtilityFramework.Lib.Transition
import UtilityFramework.Parsers.BinaryParser

/-!
# Enumeration literals in rules

`rules_concrete_generic::get_enumeration` looks a literal up by its name and by the name of its
enumeration. The items of all enumerations that have been loaded go into one map, `m_enumMap`,
whose keys are the names of the items alone: an enumeration is loaded when a name is not in the
map, and by `query_function` for the enumeration of a row or a field. An item is not replaced by
a later one of the same name.

The map thereby holds the items of the first loaded enumeration that has them
(`EnumLookups.Faithful`), and a lookup is right precisely if that one agrees with the enumeration
asked for.
-/

namespace UtilityFramework

open Transition

/-- `m_enumMap`. -/
abbrev EnumMap := List (String × ℤ)

namespace EnumMap

/-- `get_enumeration` by the name alone, which is `find`. -/
def find (map : EnumMap) (name : String) : Option ℤ :=
  (List.find? (fun entry => entry.1 = name) map).map Prod.snd

/-- `emplace`: an entry of that name stays. -/
def emplace (map : EnumMap) (item : EnumItem) : EnumMap :=
  if (map.find item.name).isSome then map else map ++ [(item.name, item.value)]

theorem find_append (map map' : EnumMap) (name : String) :
    find (map ++ map') name = (map.find name).or (find map' name) := by
  rw [find, find, find, List.find?_append]
  cases List.find? (fun entry => entry.1 = name) map <;> rfl

theorem find_emplace (map : EnumMap) (item : EnumItem) (name : String) :
    (map.emplace item).find name =
      (map.find name).or (if item.name = name then some item.value else none) := by
  rw [emplace]
  split
  · rename_i hfound
    obtain ⟨value, hvalue⟩ := Option.isSome_iff_exists.mp hfound
    split
    · rename_i hname
      rw [← hname, hvalue]
      rfl
    · rw [Option.or_none]
  · rw [find_append]
    congr 1
    by_cases hname : item.name = name <;> simp [find, hname]

/-- Loading the items of an enumeration. -/
theorem find_foldl_emplace (items : List EnumItem) (map : EnumMap) (name : String) :
    (items.foldl emplace map).find name =
      (map.find name).or ((items.find? fun item => item.name = name).map EnumItem.value) := by
  induction items generalizing map with
  | nil => exact (Option.or_none).symm
  | cons item items ih =>
    rw [List.foldl_cons, ih, find_emplace, Option.or_assoc, List.find?_cons]
    congr 1
    by_cases hname : item.name = name <;> simp [hname]

end EnumMap

/-- A literal is looked up, in the enumeration of the given name unless the name is null; a
function of a row or a field with that enumeration is queried. -/
inductive EnumCall
  | getEnumeration (enumNameVal : String) (enumTypeName : Option String)
  | queryFunction (enumTypeName : String)
  deriving DecidableEq

/-- The map, with the enumerations loaded into it and the answers to the lookups. -/
structure EnumLookups where
  map : EnumMap
  loaded : List EnumData
  answers : List (String × Option String × Option ℤ)

section Lookups

variable (store : String → Option EnumData)

/-- What a lookup is for: the value of the item of that name in the enumeration. -/
def enumValue (enumNameVal : String) (enumTypeName : Option String) : Option ℤ :=
  (enumTypeName.bind store).bind fun enum =>
    (enum.itemByName enumNameVal).map EnumItem.value

namespace EnumLookups

/-- A new rules engine. -/
def init : EnumLookups := ⟨[], [], []⟩

/-- `add_enum_map`. Its result is not used by `get_enumeration`. -/
def addEnumMap (s : EnumLookups) (enumName : String) : EnumLookups :=
  match store enumName with
  | none => s
  | some enum =>
    { s with map := enum.items.foldl EnumMap.emplace s.map, loaded := s.loaded ++ [enum] }

/-- `get_enumeration`: what it leaves, and the value it returns. -/
def getEnumeration (s : EnumLookups) (enumNameVal : String) (enumTypeName : Option String) :
    EnumLookups × Option ℤ :=
  match s.map.find enumNameVal with
  | some value => (s, some value)
  | none =>
    match enumTypeName with
    | none => (s, none)
    | some enumType =>
      if enumType = "" then (s, none)
      else
        let s' := s.addEnumMap store enumType
        (s', s'.map.find enumNameVal)

/-- One call. -/
def step (s : EnumLookups) : EnumCall → Option EnumLookups
  | .getEnumeration name type =>
    let r := s.getEnumeration store name type
    some { r.1 with answers := r.1.answers ++ [(name, type, r.2)] }
  | .queryFunction type => some (s.addEnumMap store type)

/-- All lookups have been answered with the value of the item in the enumeration asked for, and
have failed if there is none. -/
def Right (s : EnumLookups) : Prop :=
  ∀ name type answer, (name, type, answer) ∈ s.answers → answer = enumValue store name type

/-- The item of that name in the first loaded enumeration that has one. -/
def firstLoaded (s : EnumLookups) (name : String) : Option EnumItem :=
  s.loaded.findSome? fun enum => enum.itemByName name

/-- The call is no lookup, or the name means the same in the loaded enumerations and in the one
asked for, which has a name. -/
def Unambiguous (s : EnumLookups) : EnumCall → Prop
  | .getEnumeration name type =>
    match s.firstLoaded name with
    | some item => enumValue store name type = some item.value
    | none => type = some "" → enumValue store name type = none
  | .queryFunction _ => True

/-- The map holds the items of the first loaded enumeration that has them. -/
def Faithful (s : EnumLookups) : Prop :=
  ∀ name, s.map.find name = (s.firstLoaded name).map EnumItem.value

end EnumLookups

end Lookups

namespace EnumLookups

variable {store : String → Option EnumData} {s t : EnumLookups} {name enumType : String}
  {type : Option String} {call : EnumCall}

@[simp] theorem answers_addEnumMap : (s.addEnumMap store enumType).answers = s.answers := by
  rw [addEnumMap]
  cases store enumType <;> rfl

theorem Faithful.addEnumMap (h : s.Faithful) : (s.addEnumMap store enumType).Faithful := by
  intro name
  rw [EnumLookups.addEnumMap]
  cases store enumType with
  | none => exact h name
  | some enum =>
    have hitem : EnumData.itemByName enum name =
        enum.items.find? fun item => item.name = name := rfl
    rw [EnumMap.find_foldl_emplace, h name, firstLoaded, firstLoaded, List.findSome?_append,
      List.findSome?_cons, ← hitem]
    cases List.findSome? (fun enum => enum.itemByName name) s.loaded <;>
      cases enum.itemByName name <;> rfl

/-- After an enumeration has been loaded, a name that was not in the map is found if the
enumeration has an item of that name. -/
theorem Faithful.find_addEnumMap (h : s.Faithful) (hnone : s.firstLoaded name = none) :
    (s.addEnumMap store enumType).map.find name = enumValue store name (some enumType) := by
  rw [h.addEnumMap name, EnumLookups.addEnumMap, enumValue, Option.bind_some]
  cases store enumType with
  | none => rw [Option.bind_none, hnone, Option.map_none]
  | some enum =>
    have happend : (s.loaded ++ [enum]).findSome? (fun enum => enum.itemByName name) =
        enum.itemByName name := by
      rw [List.findSome?_append, ← firstLoaded, hnone, Option.none_or]
      exact List.findSome?_singleton
    exact congrArg (Option.map EnumItem.value) happend

/-- A lookup only loads an enumeration. -/
theorem getEnumeration_fst (store : String → Option EnumData) (s : EnumLookups) (name : String)
    (type : Option String) :
    (s.getEnumeration store name type).1 = s ∨
      ∃ enumType, (s.getEnumeration store name type).1 = s.addEnumMap store enumType := by
  rw [getEnumeration.eq_def]
  split
  · exact Or.inl rfl
  · split
    · exact Or.inl rfl
    · split
      · exact Or.inl rfl
      · exact Or.inr ⟨_, rfl⟩

theorem Faithful.getEnumeration (h : s.Faithful) :
    (s.getEnumeration store name type).1.Faithful := by
  rcases getEnumeration_fst store s name type with heq | ⟨enumType, heq⟩
  · rwa [heq]
  · rw [heq]
    exact h.addEnumMap

@[simp] theorem answers_getEnumeration :
    (s.getEnumeration store name type).1.answers = s.answers := by
  rcases getEnumeration_fst store s name type with heq | ⟨enumType, heq⟩
  · rw [heq]
  · rw [heq, answers_addEnumMap]

/-- **What a lookup answers.** The first loaded enumeration that has the name decides; if there
is none, the enumeration asked for is loaded. -/
theorem Faithful.getEnumeration_snd (h : s.Faithful) :
    (s.getEnumeration store name type).2 =
      match s.firstLoaded name with
      | some item => some item.value
      | none => if type = some "" then none else enumValue store name type := by
  rw [EnumLookups.getEnumeration.eq_def, h name]
  cases hfirst : s.firstLoaded name with
  | some item => rfl
  | none =>
    simp only [Option.map_none]
    cases type with
    | none => rfl
    | some enumType =>
      by_cases hempty : enumType = ""
      · simp [hempty]
      · simp only [hempty, if_false, Option.some.injEq]
        exact h.find_addEnumMap hfirst

/-- A lookup is answered right precisely if it is unambiguous. -/
theorem Faithful.getEnumeration_right_iff (h : s.Faithful) :
    (s.getEnumeration store name type).2 = enumValue store name type ↔
      s.Unambiguous store (.getEnumeration name type) := by
  rw [h.getEnumeration_snd, Unambiguous]
  cases s.firstLoaded name with
  | some item => exact eq_comm
  | none =>
    by_cases hempty : type = some ""
    · simp only [hempty, if_true, forall_const]
      exact eq_comm
    · simp only [hempty, if_false, false_implies]

theorem Faithful.step (h : s.Faithful) (hstep : s.step store call = some t) : t.Faithful := by
  cases call with
  | getEnumeration name type =>
    obtain rfl := Option.some.inj hstep
    exact h.getEnumeration
  | queryFunction enumType =>
    obtain rfl := Option.some.inj hstep
    exact h.addEnumMap

/-- One call keeps the answers right precisely if it is unambiguous. -/
theorem right_step_iff (h : s.Faithful) (hright : s.Right store)
    (hstep : s.step store call = some t) : t.Right store ↔ s.Unambiguous store call := by
  cases call with
  | getEnumeration name type =>
    obtain rfl := Option.some.inj hstep
    rw [← h.getEnumeration_right_iff]
    constructor
    · intro ht
      exact ht name type _ (List.mem_append_right _ List.mem_cons_self)
    · intro hanswer name' type' answer hmem
      rcases List.mem_append.mp hmem with hold | hnew
      · rw [answers_getEnumeration] at hold
        exact hright name' type' answer hold
      · obtain ⟨rfl, rfl, rfl⟩ := by simpa using hnew
        exact hanswer
  | queryFunction enumType =>
    obtain rfl := Option.some.inj hstep
    refine iff_of_true (fun name type answer hmem => ?_) trivial
    rw [answers_addEnumMap] at hmem
    exact hright name type answer hmem

/-- **Literals mean what they say** throughout a run precisely if every lookup is unambiguous
when it is made. -/
theorem always_right_iff (store : String → Option EnumData) (calls : List EnumCall) :
    Always (step store) (Right store) init calls ↔
      Guarded (step store) (Unambiguous store) init calls :=
  always_iff_guarded (J := Faithful) calls (fun _ _ _ hs ht => hs.step ht)
    (fun _ _ _ hs hP ht => right_step_iff hs hP ht) (fun _ => rfl)
    fun _ _ _ hmem => absurd hmem List.not_mem_nil

end EnumLookups

/-- Two enumerations with an item of the same name. -/
def colorsAndLights : String → Option EnumData
  | "Color" => some ⟨"Color", [⟨"Red", 1⟩, ⟨"Green", 2⟩]⟩
  | "Light" => some ⟨"Light", [⟨"Red", 7⟩]⟩
  | _ => none

/-- `Red` of the second enumeration is answered with its value in the first, and `Green`, which
the second does not have, does not fail. -/
theorem EnumLookups.not_always_right :
    ¬ ∀ store calls, Always (step store) (Right store) init calls := by
  intro h
  have hright := h colorsAndLights [.getEnumeration "Red" (some "Color"),
    .getEnumeration "Red" (some "Light"), .getEnumeration "Green" (some "Light")] _ _
    List.prefix_rfl rfl
  exact absurd (hright "Red" (some "Light") (some 1) (by decide)) (by decide)

end UtilityFramework
