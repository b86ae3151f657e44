import Mathlib.Data.List.Pairwise
import UtilityFramework.Lib.NestedLayout
import UtilityFramework.Lib.Transition
import UtilityFramework.Parsers.Builder

/-!
# The layout of a tree of metadata

A metadata and the metadata nested in its nodes are a nested layout, in which an array has the
extent of all its elements. The builder calls check neither that sizes add up without wrapping
around, nor that an array has an element, nor that the elements of an array are as large as
their metadata. `BinaryMetadata.Plain` says all this of one metadata; a tree in which it holds of
every metadata is a sound layout (`BinaryMetadata.Built.sound`).
-/

namespace UtilityFramework

open Transition

namespace BinaryMetadata

/-- The bytes of a node: all elements of an array. -/
def extent (node : Node) : ℕ := node.size * node.count

/-- The nested layout of a tree of metadata. -/
def layout : Layout BinaryMetadata Node String where
  fields := nodes
  size := size
  name node := node.name
  offset node := node.offset
  extent := extent
  nested node := node.nested

/-- Distinct names, the byte order of the platform, and no bit fields. -/
structure Regular (m : BinaryMetadata) : Prop where
  names : (m.nodes.map fun node => node.name).Nodup
  order : ∀ node ∈ m.nodes, node.bigEndian = false
  noBits : ∀ node ∈ m.nodes, node.type ≠ .bitmap

/-- What is assumed of each metadata of a tree besides: sizes that add up to a `size_t`, arrays of
at least one element unless the elements are empty, and no element larger than its array. -/
structure Plain (m : BinaryMetadata) : Prop extends m.Regular where
  total : (m.nodes.map extent).sum < Size.modulus
  elements : ∀ node ∈ m.nodes, node.type = .array → 1 ≤ node.count ∨ node.size = 0
  element : ∀ node ∈ m.nodes, node.type = .array → ∀ child ∈ node.child,
    child.size ≤ extent node

variable {m : BinaryMetadata} {node : Node} {increase : ℕ}

/-- The name of a field leads to it when the names are distinct. -/
theorem queryNode_of_mem (hnames : (m.nodes.map fun node => node.name).Nodup)
    (hnode : node ∈ m.nodes) : m.queryNode node.name = some node := by
  cases hfind : m.queryNode node.name with
  | none =>
    have hno := List.find?_eq_none.mp hfind node hnode
    exact absurd (decide_eq_true rfl) hno
  | some node' =>
    have hname : node'.name = node.name := by simpa using List.find?_some hfind
    rw [List.inj_on_of_nodup_map hnames (List.mem_of_find?_eq_some hfind) hnode hname]

/-- The metadata that a run of builder calls makes is built, if the metadata that the calls are
given are. -/
theorem Built.of_run {calls : List BuilderCall} {m m' : BinaryMetadata} (hm : m.Built)
    (hargs : ∀ call ∈ calls, ∀ n ∈ call.arguments, n.Built)
    (hrun : run (fun m call => BuilderCall.step (fun _ => none) m call) m calls = some m') :
    m'.Built := by
  induction calls generalizing m with
  | nil => exact Option.some.inj hrun ▸ hm
  | cons call calls ih =>
    obtain ⟨u, hu, hrun⟩ := run_cons_eq_some.mp hrun
    exact ih (.step (fun _ => none) call nofun (hargs call List.mem_cons_self) hm hu)
      (fun c hc => hargs c (List.mem_cons_of_mem call hc)) hrun

/-- A run from a metadata without nodes. -/
theorem built_of_calls (calls : List BuilderCall) {bigEndian : Bool} {m : BinaryMetadata}
    (hargs : ∀ call ∈ calls, ∀ n ∈ call.arguments, n.Built)
    (hrun : run (fun m call => BuilderCall.step (fun _ => none) m call) (empty bigEndian) calls =
      some m) : m.Built := .of_run (.empty bigEndian "") hargs hrun

/-- Calls that are given no metadata. -/
theorem built_of_arguments_isEmpty {calls : List BuilderCall}
    (h : ∀ call ∈ calls, call.arguments.isEmpty = true) :
    ∀ call ∈ calls, ∀ n ∈ call.arguments, n.Built := by
  intro call hcall n hn
  rw [List.isEmpty_iff.mp (h call hcall)] at hn
  exact absurd hn List.not_mem_nil

/-! ### Positions in one metadata -/

/-- A node that is no bit field goes to the end of the record, which grows by its extent. -/
theorem Appends.position (h : m.Appends node increase) (htype : node.type ≠ .bitmap) :
    node.offset = m.size ∧ Size.add m.size increase = (m.size + extent node) % Size.modulus := by
  cases h with
  | plain | string | nest =>
    refine ⟨rfl, ?_⟩
    rw [Size.add, extent]
    exact congrArg (fun n => (m.size + n) % Size.modulus) (Nat.mul_one _).symm
  | bits => exact absurd rfl htype
  | array | arrayString | arrayEnum | arrayComplex =>
    refine ⟨rfl, ?_⟩
    rw [Size.add, Size.mul, Nat.add_mod_mod]
    rfl

/-- The nodes of a metadata lie one behind the other, and the record ends with the last one. -/
theorem Built.consecutive (h : m.Built) (htype : ∀ node ∈ m.nodes, node.type ≠ .bitmap)
    (htotal : (m.nodes.map extent).sum < Size.modulus) :
    m.size = (m.nodes.map extent).sum ∧
      (m.nodes.Pairwise fun a b => a.offset + extent a ≤ b.offset) ∧
        ∀ node ∈ m.nodes, node.offset + extent node ≤ m.size := by
  have hall := h.induction_append (P := fun nodes size =>
    (∀ node ∈ nodes, node.type ≠ .bitmap) → (nodes.map extent).sum < Size.modulus →
      size = (nodes.map extent).sum ∧
        (nodes.Pairwise fun a b => a.offset + extent a ≤ b.offset) ∧
          ∀ node ∈ nodes, node.offset + extent node ≤ size) ?_ ?_
  · exact hall htype htotal
  · exact fun _ _ => ⟨rfl, List.Pairwise.nil, fun _ hnode => absurd hnode List.not_mem_nil⟩
  · intro m node increase _ ih happ htype htotal
    simp only [append, nodes_mk, size_mk] at htype htotal ⊢
    rw [List.map_append, List.sum_append, List.map_singleton, List.sum_singleton] at htotal ⊢
    obtain ⟨hsize, hordered, hinside⟩ :=
      ih (fun n hn => htype n (List.mem_append_left _ hn)) (by omega)
    obtain ⟨hoffset, hadd⟩ :=
      happ.position (htype node (List.mem_append_right _ List.mem_cons_self))
    rw [Nat.mod_eq_of_lt (by omega)] at hadd
    refine ⟨by omega, List.pairwise_append.mpr
      ⟨hordered, List.pairwise_singleton _ _, fun a ha b hb => ?_⟩, fun a ha => ?_⟩
    · rw [List.mem_singleton.mp hb, hoffset]
      exact hinside a ha
    · rcases List.mem_append.mp ha with ha | ha
      · have hle := hinside a ha
        omega
      · rw [List.mem_singleton.mp ha]
        omega

end BinaryMetadata

/-! ### What nodes nest -/

open BinaryMetadata in
/-- What is known of the metadata that a node nests: builder calls have made it, and it is of the
size of the node or, in an array, of that of the element. -/
structure Node.NestsBuilt (node : Node) : Prop where
  built : ∀ n, node.nested = some n → n.Built
  size : ∀ n, node.nested = some n → n.size = extent node ∨
    node.type = .array ∧ ∃ child, node.child = some child ∧ n.size ≤ child.size
  count : node.type = .array ∨ node.count = 1

namespace BinaryMetadata

variable {m : BinaryMetadata} {node : Node} {increase : ℕ}

/-- The metadata of the elements of an array is made by a builder call. -/
theorem built_single {b : Bool} {element : BinaryMetadata → Node} (call : BuilderCall)
    (hargs : ∀ n ∈ call.arguments, n.Built)
    (h : call.step (fun _ => none) (empty b) = some (single b element)) :
    (single b element).Built :=
  .step (fun _ => none) call nofun hargs (.empty b "") h

theorem nestsBuilt_of_not_nested (hnested : node.nested = none) (hcount : node.count = 1) :
    node.NestsBuilt where
  built n hn := absurd (hnested.symm.trans hn) (Option.some_ne_none n).symm
  size n hn := absurd (hnested.symm.trans hn) (Option.some_ne_none n).symm
  count := Or.inr hcount

theorem nestsBuilt_of_single {b : Bool} {element : BinaryMetadata → Node}
    (htype : node.type = .array) (hnested : node.nested = some (single b element))
    (hbuilt : (single b element).Built) : node.NestsBuilt := by
  refine ⟨fun n hn => ?_, fun n hn => Or.inr ⟨htype, element (.empty b), ?_, ?_⟩, Or.inl htype⟩
  · rwa [← Option.some.inj (hnested.symm.trans hn)]
  · rw [Node.child, hnested]
    rfl
  · rw [← Option.some.inj (hnested.symm.trans hn)]
    change Size.add 0 (element (.empty b)).size ≤ _
    rw [Size.add, Nat.zero_add]
    exact Nat.mod_le _ _

theorem Appends.nestsBuilt (h : m.Appends node increase) : node.NestsBuilt := by
  cases h with
  | plain | string | bits => exact nestsBuilt_of_not_nested rfl rfl
  | nest name nested hname hnested =>
    refine ⟨fun n hn => Option.some.inj hn ▸ hnested, fun n hn => Or.inl ?_, Or.inr rfl⟩
    rw [← Option.some.inj hn]
    exact (Nat.mul_one _).symm
  | array name given size type count options hname htype =>
    refine nestsBuilt_of_single rfl rfl (built_single
      (.put (elementName given count) size type options)
      (by simp [BuilderCall.arguments]) ?_)
    rw [BuilderCall.step, BuilderCall.apply, put_eq _ (elementName_ne_empty given count)]
    rfl
  | arrayString name given size count defString hname =>
    refine nestsBuilt_of_single rfl rfl (built_single
      (.putString (elementName given count) size defString)
      (by simp [BuilderCall.arguments]) ?_)
    rw [BuilderCall.step, BuilderCall.apply, putString_eq _ (elementName_ne_empty given count)]
    rfl
  | arrayEnum name size count options enum =>
    refine nestsBuilt_of_single rfl rfl (built_single
      (.putEnum (elementName name count) size (some enum) options)
      (by simp [BuilderCall.arguments]) ?_)
    rw [BuilderCall.step, BuilderCall.apply, putEnum_eq _ (elementName_ne_empty name count)]
    rfl
  | arrayComplex name given size count options nested hname hnested =>
    refine nestsBuilt_of_single rfl rfl
      (built_single (.nest (elementName given count) nested) (fun n hn => ?_) ?_)
    · rwa [List.mem_singleton.mp hn]
    · rw [BuilderCall.step, BuilderCall.apply, nestMetadata_eq _ (elementName_ne_empty given count)]
      rfl

theorem Built.nestsBuilt (h : m.Built) : ∀ node ∈ m.nodes, node.NestsBuilt := by
  refine h.induction_append (P := fun nodes _ => ∀ node ∈ nodes, node.NestsBuilt) ?_ ?_
  · exact fun _ hnode => absurd hnode List.not_mem_nil
  · intro m new increase _ ih happ node hnode
    rcases List.mem_append.mp hnode with hold | hnew
    · exact ih node hold
    · rw [List.mem_singleton.mp hnew]
      exact happ.nestsBuilt

/-! ### The tree -/

/-- The bytes of one element are among those of the node. -/
theorem Plain.size_le_extent (h : m.Plain) (hm : m.Built) (hnode : node ∈ m.nodes) :
    node.size ≤ extent node := by
  rw [extent]
  rcases (hm.nestsBuilt node hnode).count with harray | hone
  · rcases h.elements node hnode harray with hcount | hzero
    · exact Nat.le_mul_of_pos_right _ hcount
    · rw [hzero]
      exact Nat.zero_le _
  · rw [hone, Nat.mul_one]

/-- One metadata is a sound record. -/
theorem Plain.sound (h : m.Plain) (hm : m.Built) : layout.Sound m := by
  obtain ⟨-, hordered, hinside⟩ := hm.consecutive h.noBits h.total
  refine ⟨h.names, hinside, fun a ha b hb hne => ?_, fun node hnode n hn => ?_⟩
  · have hdiff : a ≠ b := fun heq => hne (congrArg (fun node : Node => node.name) heq)
    have hapart : m.nodes.Pairwise fun a b => layout.Apart a a.offset b b.offset :=
      hordered.imp Or.inl
    have hsymm : Std.Symm fun a b : Node => layout.Apart a a.offset b b.offset :=
      ⟨fun _ _ => Or.symm⟩
    exact hapart.forall ha hb hdiff
  · -- a nested metadata is of the size of its node, the elements of an array are not larger
    rcases (hm.nestsBuilt node hnode).size n hn with heq | ⟨harray, child, hchild, hle⟩
    · exact heq.le
    · exact hle.trans (h.element node hnode harray child hchild)

/-- **Trees of metadata are sound layouts**, when every metadata of the tree is plain. -/
theorem Built.sound (hm : m.Built) (h : layout.Throughout Plain m) :
    layout.Throughout layout.Sound m :=
  h.imp_of_inherited hm (fun _ hm hplain _ => hplain.sound hm)
    fun _ hm node hnode => (hm.nestsBuilt node hnode).built

/-- One element of a field is not longer than the field, in all metadata of the tree. -/
theorem Built.size_le_extent (hm : m.Built) (h : layout.Throughout Plain m) :
    layout.Throughout (fun m => ∀ node ∈ m.nodes, node.size ≤ extent node) m :=
  h.imp_of_inherited hm (fun _ hm hplain _ _ hnode => hplain.size_le_extent hm hnode)
    fun _ hm node hnode => (hm.nestsBuilt node hnode).built

end BinaryMetadata

end UtilityFramework
