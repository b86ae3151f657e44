import Mathlib.Data.List.Nodup
import UtilityFramework.Parsers.PoolIsolation

/-!
# The nested parsers of a parser

`parse_nested` makes a nested parser for each nested and each array field, in their order, and
stops at the first one that nests no metadata. `ParserTree.parseNested_eq` says what it makes when
the names of the fields are distinct, and `ParserTree.entry_create` which nested parser a field
has; no field then has a null pointer for its nested parser, also after `parse(buffer)` has
replaced buffers in the tree.
-/

namespace UtilityFramework

namespace Node

/-- `build_nested_parser` returns true for the field, or it is not called. -/
def nests (node : Node) : Bool :=
  (node.type ≠ .complex ∧ node.type ≠ .array) || node.nested.isSome

/-- The entry that `build_nested_parser` makes for the field. -/
def nestedEntry (buffer off : ℕ) (node : Node) : Option (String × Option ParserTree) :=
  if node.type ≠ .complex ∧ node.type ≠ .array then none
  else node.nested.map fun m => (node.name, some (.create buffer m (off + node.offset)))

theorem fst_of_nestedEntry {buffer off : ℕ} {node : Node} {e : String × Option ParserTree}
    (h : node.nestedEntry buffer off = some e) : e.1 = node.name := by
  rw [nestedEntry] at h
  split at h
  · cases h
  · obtain ⟨m, -, rfl⟩ := Option.map_eq_some_iff.mp h
    rfl

end Node

namespace ParserTree

variable {t sub : ParserTree} {buffer off : ℕ} {nodes : List Node} {m n : BinaryMetadata}
  {node : Node} {name : String} {parsers : List (String × Option ParserTree)}

/-! ### What the constructor makes -/

/-- `build_nested_parser` for a field whose name no earlier one has. -/
theorem buildNestedParser_eq (hname : node.name ∉ parsers.map Prod.fst) :
    buildNestedParser buffer node off parsers =
      if node.nests then some (parsers ++ (node.nestedEntry buffer off).toList) else none := by
  obtain ⟨name, offset, size, type, be, opts, dflt, nested, enum, count, bits⟩ := node
  rw [buildNestedParser, Node.nests, Node.nestedEntry]
  by_cases htype : type ≠ .complex ∧ type ≠ .array
  · simp [htype]
  · rw [if_neg htype, if_neg hname, if_neg htype, decide_eq_false htype, Bool.false_or]
    cases nested with
    | none => rfl
    | some m => rfl

/-- **What `parse_nested` makes** of fields with distinct names. -/
theorem parseNested_eq
    (hnames : (parsers.map Prod.fst ++ nodes.map fun node => node.name).Nodup) :
    parseNested buffer nodes off parsers =
      parsers ++ (nodes.takeWhile Node.nests).filterMap (Node.nestedEntry buffer off) := by
  induction nodes generalizing parsers with
  | nil => simp [parseNested]
  | cons node rest ih =>
    rw [List.map_cons] at hnames
    have hname : node.name ∉ parsers.map Prod.fst := fun hmem =>
      (List.nodup_append.mp hnames).2.2 _ hmem _ List.mem_cons_self rfl
    rw [parseNested, buildNestedParser_eq hname, List.takeWhile_cons]
    by_cases hnests : node.nests = true
    · rw [if_pos hnests, if_pos hnests]
      cases hentry : node.nestedEntry buffer off with
      | none =>
        simp only [Option.toList_none, List.append_nil, List.filterMap_cons_none hentry]
        exact ih (hnames.sublist (List.Sublist.append_left (List.sublist_cons_self _ _) _))
      | some e =>
        simp only [Option.toList_some, List.filterMap_cons_some hentry]
        rw [ih, List.append_assoc, List.singleton_append]
        rwa [List.map_append, List.map_singleton, Node.fst_of_nestedEntry hentry,
          List.append_assoc, List.singleton_append]
    · rw [if_neg hnests, if_neg hnests, List.filterMap_nil, List.append_nil]

theorem parsers_create (hnames : (m.nodes.map fun node => node.name).Nodup) :
    (create buffer m off).parsers =
      (m.nodes.takeWhile Node.nests).filterMap (Node.nestedEntry buffer off) := by
  obtain ⟨_, _, nodes, _⟩ := m
  exact parseNested_eq hnames

/-- **The nested parser of a field** of a new parser. -/
theorem entry_create (hnames : (m.nodes.map fun node => node.name).Nodup)
    (hnode : node ∈ m.nodes.takeWhile Node.nests)
    (htype : node.type = .complex ∨ node.type = .array) (hnested : node.nested = some n) :
    (create buffer m off).entry node.name =
      some (some (create buffer n (off + node.offset))) := by
  have hentry : node.nestedEntry buffer off =
      some (node.name, some (create buffer n (off + node.offset))) := by
    rw [Node.nestedEntry, if_neg (by rcases htype with h | h <;> simp [h]), hnested]
    rfl
  rw [entry, parsers_create hnames]
  cases hfind : List.find? (fun e => decide (e.1 = node.name))
      ((m.nodes.takeWhile Node.nests).filterMap (Node.nestedEntry buffer off)) with
  | none =>
    have hnone := List.find?_eq_none.mp hfind _ (List.mem_filterMap.mpr ⟨node, hnode, hentry⟩)
    exact absurd (decide_eq_true rfl) hnone
  | some e =>
    have hname : e.1 = node.name := by simpa using List.find?_some hfind
    obtain ⟨node', hnode', hentry'⟩ := List.mem_filterMap.mp (List.mem_of_find?_eq_some hfind)
    have hsame : node'.name = node.name := (Node.fst_of_nestedEntry hentry').symm.trans hname
    obtain rfl : node' = node := List.inj_on_of_nodup_map hnames
      ((List.takeWhile_sublist _).subset hnode') ((List.takeWhile_sublist _).subset hnode) hsame
    rw [← Option.some.inj (hentry.symm.trans hentry')]
    rfl

/-- With distinct names the nested parsers of a new parser are no null pointers. -/
theorem entry_create_ne_null (hnames : (m.nodes.map fun node => node.name).Nodup) :
    (create buffer m off).entry name ≠ some none := by
  rw [entry, parsers_create hnames]
  intro hnull
  obtain ⟨e, hfind, hsnd⟩ := Option.map_eq_some_iff.mp hnull
  obtain ⟨node, -, hentry⟩ := List.mem_filterMap.mp (List.mem_of_find?_eq_some hfind)
  rw [Node.nestedEntry] at hentry
  split at hentry
  · cases hentry
  · obtain ⟨n, -, rfl⟩ := Option.map_eq_some_iff.mp hentry
    cases hsnd

/-! ### The buffer of a new parser -/

/-- A new parser over a buffer, given its metadata and its offset. -/
def newParser (buffer : ℕ) (place : BinaryMetadata × ℕ) : ParserTree :=
  create buffer place.1 place.2

/-- What `parse_nested` makes depends on the buffer only in that all parsers have it. -/
theorem exists_parseNested (nodes : List Node) (off : ℕ)
    (places : List (String × Option (BinaryMetadata × ℕ))) :
    ∃ places' : List (String × Option (BinaryMetadata × ℕ)), ∀ buffer,
      parseNested buffer nodes off (places.map fun e => (e.1, e.2.map (newParser buffer))) =
        places'.map fun e => (e.1, e.2.map (newParser buffer)) := by
  induction nodes generalizing places with
  | nil => exact ⟨places, fun _ => rfl⟩
  | cons node rest ih =>
    obtain ⟨name, offset, size, type, be, opts, dflt, nested, enum, count, bits⟩ := node
    have hkeys (buffer : ℕ) : List.map Prod.fst
        (places.map fun e => (e.1, e.2.map (newParser buffer))) = places.map Prod.fst := by
      rw [List.map_map]
      rfl
    by_cases htype : type ≠ .complex ∧ type ≠ .array
    · obtain ⟨places', h⟩ := ih places
      refine ⟨places', fun buffer => ?_⟩
      rw [parseNested, buildNestedParser, if_pos htype]
      exact h buffer
    · by_cases hname : name ∈ places.map Prod.fst
      · -- the name is taken: the pointer becomes null
        obtain ⟨places', h⟩ := ih (places.map fun e => if e.1 = name then (name, none) else e)
        refine ⟨places', fun buffer => ?_⟩
        rw [parseNested, buildNestedParser, if_neg htype, if_pos (by rwa [hkeys]), ← h buffer,
          List.map_map, List.map_map]
        refine congrArg (parseNested buffer rest off) (List.map_congr_left fun e _ => ?_)
        simp only [Function.comp]
        split <;> rfl
      · cases nested with
        | none =>
          refine ⟨places, fun buffer => ?_⟩
          rw [parseNested, buildNestedParser, if_neg htype, if_neg (by rwa [hkeys])]
          rfl
        | some n =>
          obtain ⟨places', h⟩ := ih (places ++ [(name, some (n, off + offset))])
          refine ⟨places', fun buffer => ?_⟩
          rw [parseNested, buildNestedParser, if_neg htype, if_neg (by rwa [hkeys]), ← h buffer,
            List.map_append]
          rfl

/-- The nested parsers of a new parser have its buffer, and their places do not depend on it. -/
theorem exists_entry_create (m : BinaryMetadata) (off : ℕ) (name : String) :
    ∃ place : Option (Option (BinaryMetadata × ℕ)), ∀ buffer,
      (create buffer m off).entry name = place.map (Option.map (newParser buffer)) := by
  obtain ⟨be, mname, nodes, size⟩ := m
  obtain ⟨places, h⟩ := exists_parseNested nodes off []
  refine ⟨(places.find? fun e => e.1 = name).map Prod.snd, fun buffer => ?_⟩
  rw [entry, create, parsers, ← List.map_nil (f := fun e : String × Option (BinaryMetadata × ℕ) =>
    (e.1, e.2.map (newParser buffer))), h buffer, List.find?_map, Option.map_map, Option.map_map]
  rfl

/-! ### Replaced buffers -/

/-- A parser of a tree in which a buffer has been replaced is one of the tree before, possibly
with a replaced buffer. -/
theorem eq_or_setBuffer_of_descend {path path' : List String}
    (h : (t.setBuffer buffer path').descend path = some sub) :
    ∃ old, t.descend path = some old ∧ (sub = old ∨ ∃ rest, sub = old.setBuffer buffer rest) := by
  induction path generalizing t path' with
  | nil => exact ⟨t, rfl, Or.inr ⟨path', (Option.some.inj h).symm⟩⟩
  | cons name path ih =>
    obtain ⟨m, b, o, l⟩ := t
    cases path' with
    | nil => exact ⟨sub, h, Or.inl rfl⟩
    | cons name' path' =>
      rw [descend, entry_setBuffer] at h
      rw [descend]
      split_ifs at h with hname
      · cases hentry : (mk m b o l).entry name with
        | none => simp [hentry] at h
        | some e =>
          cases e with
          | none => simp [hentry] at h
          | some next =>
            rw [hentry] at h
            exact ih h
      · exact ⟨sub, h, Or.inl rfl⟩

theorem metadata_setBuffer (path : List String) (t : ParserTree) :
    (t.setBuffer buffer path).metadata = t.metadata := by
  cases t
  cases path <;> rfl

theorem entry_setBuffer_ne_null {path : List String} (h : t.entry name ≠ some none) :
    (t.setBuffer buffer path).entry name ≠ some none := by
  obtain ⟨m, b, o, l⟩ := t
  cases path with
  | nil => exact h
  | cons name' path =>
    rw [entry_setBuffer]
    split_ifs
    · intro hnull
      obtain ⟨e, he, hnone⟩ := Option.map_eq_some_iff.mp hnull
      rw [Option.map_eq_none_iff.mp hnone] at he
      exact h he
    · exact h

end ParserTree

end UtilityFramework
