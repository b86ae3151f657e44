import UtilityFramework.Parsers.BinaryParser
import UtilityFramework.Parsers.TreeLayout

/-!
# Records inside of a record

A record contains the records of its nested fields and the elements of its arrays of records, at
any depth. `BinaryMetadata.Contains` gives them with their offsets; which elements of an array
count is left open. Where the fields of a tree lie apart (`BinaryMetadata.Spaced`), all of them
lie inside of the record, and what holds of their bytes does not depend on where the record is.
-/

namespace UtilityFramework

open Bytes

namespace BinaryMetadata

/-- The record of `n` at offset `o` is part of the record of `m` at offset `off`: as a nested
field, or as an element of an array with an index that is admitted. -/
inductive Contains (admits : Node → ℕ → Prop) :
    BinaryMetadata → ℕ → BinaryMetadata → ℕ → Prop
  | refl (m : BinaryMetadata) (off : ℕ) : Contains admits m off m off
  | nested {m n m' : BinaryMetadata} {off o : ℕ} {node : Node} (hnode : node ∈ m.nodes)
    (htype : node.type = .complex) (hnested : node.nested = some m')
    (h : Contains admits m' (off + node.offset) n o) : Contains admits m off n o
  | element {m n m' : BinaryMetadata} {off o j : ℕ} {node child : Node} (hnode : node ∈ m.nodes)
    (htype : node.type = .array) (hchild : node.child = some child)
    (hcomplex : child.type = .complex) (hnested : child.nested = some m') (hj : admits node j)
    (h : Contains admits m' (off + node.offset + j * child.size) n o) : Contains admits m off n o

/-- The fields of a record have distinct names and lie inside of it; they lie apart, unless they
are bit fields; and the elements of an array are not larger than it says. -/
structure Spaced (m : BinaryMetadata) : Prop where
  names : (m.nodes.map fun node => node.name).Nodup
  inside : ∀ node ∈ m.nodes, node.offset + extent node ≤ m.size
  apart : ∀ a ∈ m.nodes, ∀ b ∈ m.nodes, a.name ≠ b.name → (a.type = .bitmap → b.type ≠ .bitmap) →
    a.offset + extent a ≤ b.offset ∨ b.offset + extent b ≤ a.offset
  elements : ∀ node ∈ m.nodes, node.type = .array → ∀ child, node.child = some child →
    child.size ≤ node.size

variable {m n m' : BinaryMetadata} {off o j : ℕ} {node child : Node}
  {admits : Node → ℕ → Prop}

/-- A statement about all records inside of a record, level by level. -/
theorem forall_contains_iff {Q : BinaryMetadata → ℕ → Prop} :
    (∀ n o, m.Contains admits off n o → Q n o) ↔
      Q m off ∧
        (∀ node ∈ m.nodes, node.type = .complex → ∀ m', node.nested = some m' →
          ∀ n o, m'.Contains admits (off + node.offset) n o → Q n o) ∧
          ∀ node ∈ m.nodes, node.type = .array → ∀ child, node.child = some child →
            child.type = .complex → ∀ m', child.nested = some m' → ∀ j, admits node j →
              ∀ n o, m'.Contains admits (off + node.offset + j * child.size) n o → Q n o := by
  constructor
  · intro h
    refine ⟨h m off (.refl m off), ?_, ?_⟩
    · intro node hnode htype m' hm' n o hn
      exact h n o (.nested hnode htype hm' hn)
    · intro node hnode htype child hchild hcomplex m' hm' j hj n o hn
      exact h n o (.element hnode htype hchild hcomplex hm' hj hn)
  · rintro ⟨hself, hnested, helement⟩ n o h
    cases h with
    | refl => exact hself
    | nested hnode htype hm' hn => exact hnested _ hnode htype _ hm' n o hn
    | element hnode htype hchild hcomplex hm' hj hn =>
      exact helement _ hnode htype _ hchild hcomplex _ hm' _ hj n o hn

/-! ### Sizes -/

theorem Built.extent_of_not_array (hm : m.Built) (hnode : node ∈ m.nodes)
    (htype : node.type ≠ .array) : extent node = node.size := by
  rcases (hm.nestsBuilt node hnode).count with harray | hone
  · exact absurd harray htype
  · rw [extent, hone, Nat.mul_one]

theorem Built.size_of_nested (hm : m.Built) (hnode : node ∈ m.nodes) (htype : node.type = .complex)
    (hnested : node.nested = some m') : m'.size = extent node := by
  rcases (hm.nestsBuilt node hnode).size m' hnested with hsize | ⟨harray, -⟩
  · exact hsize
  · rw [htype] at harray
    cases harray

/-- The metadata of the elements of an array, through the metadata of the array. -/
theorem exists_of_child (hchild : node.child = some child) :
    ∃ wrapper, node.nested = some wrapper ∧ child ∈ wrapper.nodes := by
  obtain ⟨wrapper, hwrapper, hhead⟩ := Option.bind_eq_some_iff.mp hchild
  exact ⟨wrapper, hwrapper, List.mem_of_head? hhead⟩

theorem Built.of_element (hm : m.Built) (hnode : node ∈ m.nodes) (hchild : node.child = some child)
    (hnested : child.nested = some m') : m'.Built := by
  obtain ⟨wrapper, hwrapper, hmem⟩ := exists_of_child hchild
  exact (((hm.nestsBuilt node hnode).built wrapper hwrapper).nestsBuilt child hmem).built m' hnested

theorem Built.size_of_element (hm : m.Built) (hnode : node ∈ m.nodes)
    (hchild : node.child = some child) (hcomplex : child.type = .complex)
    (hnested : child.nested = some m') : m'.size = child.size := by
  obtain ⟨wrapper, hwrapper, hmem⟩ := exists_of_child hchild
  have hbuilt := (hm.nestsBuilt node hnode).built wrapper hwrapper
  rw [hbuilt.size_of_nested hmem hcomplex hnested,
    hbuilt.extent_of_not_array hmem (by simp [hcomplex])]

theorem of_element {P : BinaryMetadata → Prop} (hm : layout.Throughout P m) (hnode : node ∈ m.nodes)
    (hchild : node.child = some child) (hnested : child.nested = some m') :
    layout.Throughout P m' := by
  obtain ⟨wrapper, hwrapper, hmem⟩ := exists_of_child hchild
  exact (hm.of_nested hnode hwrapper).of_nested hmem hnested

/-- The elements of an array lie in it. -/
theorem Spaced.element_le (h : m.Spaced) (hnode : node ∈ m.nodes) (htype : node.type = .array)
    (hchild : node.child = some child) (hj : j < node.count) :
    j * child.size + child.size ≤ extent node := by
  have hsize := h.elements node hnode htype child hchild
  calc j * child.size + child.size = (j + 1) * child.size := (Nat.succ_mul _ _).symm
    _ ≤ node.count * node.size := Nat.mul_le_mul hj hsize
    _ = extent node := Nat.mul_comm _ _

/-! ### Places -/

/-- A record that is contained in another one lies inside of it, wherever that one is. -/
theorem Contains.place (h : m.Contains admits off n o)
    (hadmits : ∀ node j, admits node j → j < node.count) (hm : m.Built)
    (hs : layout.Throughout Spaced m) :
    ∃ d, o = off + d ∧ d + n.size ≤ m.size ∧ n.Built ∧ layout.Throughout Spaced n ∧
      ∀ off', m.Contains admits off' n (off' + d) := by
  induction h with
  | refl m off => exact ⟨0, rfl, by omega, hm, hs, fun off' => .refl m off'⟩
  | @nested m n m' off o node hnode htype hnested h ih =>
    obtain ⟨d, rfl, hin, hbuilt, hspaced, hmove⟩ :=
      ih ((hm.nestsBuilt node hnode).built m' hnested) (hs.of_nested hnode hnested)
    have hsize := hm.size_of_nested hnode htype hnested
    have hinside := hs.here.inside node hnode
    refine ⟨node.offset + d, by omega, by omega, hbuilt, hspaced, fun off' => ?_⟩
    rw [← Nat.add_assoc]
    exact .nested hnode htype hnested (hmove (off' + node.offset))
  | @element m n m' off o j node child hnode htype hchild hcomplex hnested hj h ih =>
    obtain ⟨d, rfl, hin, hbuilt, hspaced, hmove⟩ :=
      ih (hm.of_element hnode hchild hnested) (of_element hs hnode hchild hnested)
    have hsize := hm.size_of_element hnode hchild hcomplex hnested
    have hinside := hs.here.inside node hnode
    have hle := hs.here.element_le hnode htype hchild (hadmits node j hj)
    refine ⟨node.offset + j * child.size + d, by omega, by omega, hbuilt, hspaced,
      fun off' => ?_⟩
    rw [← Nat.add_assoc, ← Nat.add_assoc]
    exact .element hnode htype hchild hcomplex hnested hj
      (hmove (off' + node.offset + j * child.size))

/-- What is said of the bytes of the fields of a record, and of those inside of it, depends on the
bytes of the record only, and not on where it is. -/
theorem forall_contains_slice_iff {Q : List UInt8 → ℕ → Node → Prop} {buf : List UInt8}
    (hadmits : ∀ node j, admits node j → j < node.count) (hm : m.Built)
    (hs : layout.Throughout Spaced m)
    (hQ : ∀ (n : BinaryMetadata) (o : ℕ), n.Built → n.Spaced → o + n.size ≤ m.size →
      ∀ node ∈ n.nodes, (Q (slice buf off m.size) o node ↔ Q buf (off + o) node)) :
    (∀ n o, m.Contains admits off n o → ∀ node ∈ n.nodes, Q buf o node) ↔
      ∀ n o, m.Contains admits 0 n o → ∀ node ∈ n.nodes, Q (slice buf off m.size) o node := by
  constructor
  · intro h n o hn node hnode
    obtain ⟨d, rfl, hin, hbuilt, hspaced, hmove⟩ := hn.place hadmits hm hs
    rw [Nat.zero_add]
    exact (hQ n d hbuilt hspaced.here hin node hnode).mpr (h n _ (hmove off) node hnode)
  · intro h n o hn node hnode
    obtain ⟨d, rfl, hin, hbuilt, hspaced, hmove⟩ := hn.place hadmits hm hs
    have hzero := hmove 0
    rw [Nat.zero_add] at hzero
    exact (hQ n d hbuilt hspaced.here hin node hnode).mp (h n d hzero node hnode)

end BinaryMetadata

/-! ### Values -/

section Values

variable {p : Platform} {buf : List UInt8} {off j : ℕ} {node child : Node}

/-- The value of a field that is no bit field, in a buffer that has it. -/
theorem readByNode_eq (htype : node.type ≠ .bitmap)
    (hfit : off + node.offset + node.size ≤ buf.length) :
    readByNode p buf off node node.size =
      some (convertOrder node.bigEndian (slice buf (off + node.offset) node.size)) := by
  rw [readByNode, if_neg (lt_irrefl _), if_neg htype, safeRead, if_pos (by omega)]
  rfl

/-- The value of an element of an array, in a buffer that has it. -/
theorem readAt_eq (hfit : off + node.offset + j * child.size + child.size ≤ buf.length) :
    readAt buf off node child j =
      some (convertOrder child.bigEndian
        (slice buf (off + node.offset + j * child.size) child.size)) := by
  rw [readAt, safeRead, if_pos (by omega)]
  rfl

end Values

end UtilityFramework
