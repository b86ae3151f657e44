import Mathlib.Data.Set.Finite.Basic
import Mathlib.Logic.Relation
import Mathlib.Order.WellFounded

/-!
# Anchored nodes of a graph

In a graph some nodes are held from outside. A node is *anchored* if it belongs to a set of
nodes each of which is held from outside or has an edge from a node of the set: the greatest
set that supports itself. Nodes that keep one another alive by counting the edges to them are
those that are anchored.

If only finitely many nodes have edges, the anchored nodes are those that can be reached from
a node that is held or from a cycle (`anchored_iff`).
-/

namespace UtilityFramework

namespace Anchoring

open Relation

universe u

variable {V : Type u} {edge edge' : V → V → Prop} {held held' : V → Prop} {x y : V}

/-- `y` belongs to a set of nodes that supports itself. -/
def Anchored (edge : V → V → Prop) (held : V → Prop) (y : V) : Prop :=
  ∃ N : Set V, y ∈ N ∧ ∀ z ∈ N, held z ∨ ∃ x ∈ N, edge x z

theorem Anchored.of_held (h : held y) : Anchored edge held y := by
  refine ⟨{y}, rfl, ?_⟩
  rintro z rfl
  exact .inl h

theorem Anchored.of_cycle (h : TransGen edge y y) : Anchored edge held y := by
  refine ⟨{z | TransGen edge z y ∧ TransGen edge y z}, ⟨h, h⟩, ?_⟩
  rintro z ⟨hzy, hyz⟩
  obtain ⟨x, hyx, hxz⟩ := TransGen.tail'_iff.mp hyz
  refine .inr ⟨x, ⟨.head hxz hzy, ?_⟩, hxz⟩
  exact TransGen.trans_left h hyx

theorem Anchored.of_edge (h : Anchored edge held x) (he : edge x y) : Anchored edge held y := by
  obtain ⟨N, hx, hN⟩ := h
  refine ⟨insert y N, .inl rfl, ?_⟩
  rintro z (rfl | hz)
  · exact .inr ⟨x, .inr hx, he⟩
  · exact (hN z hz).imp_right fun ⟨w, hw, hwz⟩ => ⟨w, .inr hw, hwz⟩

theorem Anchored.reach (h : Anchored edge held x) (hr : ReflTransGen edge x y) :
    Anchored edge held y := by
  induction hr with
  | refl => exact h
  | tail _ he ih => exact ih.of_edge he

theorem Anchored.mono (h : Anchored edge held y) (he : ∀ x z, edge x z → edge' x z)
    (hh : ∀ z, held z → held' z) : Anchored edge' held' y := by
  obtain ⟨N, hy, hN⟩ := h
  refine ⟨N, hy, fun z hz => (hN z hz).imp (hh z) fun ⟨x, hx, hxz⟩ => ⟨x, hx, he x z hxz⟩⟩

/-- A node that is held, or on a cycle. -/
def Source (edge : V → V → Prop) (held : V → Prop) (e : V) : Prop := held e ∨ TransGen edge e e

/-- A set of nodes without a cycle, in which every node has an edge from a node of the set that
has edges itself, is empty. -/
theorem not_mem_of_edge {N : Set V} (hfin : {x | ∃ z, edge x z}.Finite)
    (hcycle : ∀ z ∈ N, ¬TransGen edge z z) (hN : ∀ z ∈ N, ∃ x ∈ N, edge x z) : y ∉ N := by
  intro hy
  have : Finite {x // x ∈ N ∧ ∃ z, edge x z} := (hfin.subset fun x hx => hx.2).to_subtype
  have htrans : IsTrans {x // x ∈ N ∧ ∃ z, edge x z} fun a b => TransGen edge a b :=
    ⟨fun _ _ _ => TransGen.trans⟩
  have hirrefl : Std.Irrefl fun (a b : {x // x ∈ N ∧ ∃ z, edge x z}) => TransGen edge a b :=
    ⟨fun a => hcycle a a.2.1⟩
  obtain ⟨x, hx, hxy⟩ := hN y hy
  obtain ⟨m, -, hmin⟩ := (Finite.wellFounded_of_trans_of_irrefl
    fun (a b : {x // x ∈ N ∧ ∃ z, edge x z}) => TransGen edge a b).has_min Set.univ
      ⟨⟨x, hx, y, hxy⟩, trivial⟩
  obtain ⟨w, hw, hwm⟩ := hN m m.2.1
  exact hmin ⟨w, hw, m, hwm⟩ trivial (.single hwm)

/-- **The anchored nodes of a finite graph** are those that can be reached from a node that is
held or from a cycle. -/
theorem anchored_iff (hfin : {x | ∃ z, edge x z}.Finite) :
    Anchored edge held y ↔ ∃ e, Source edge held e ∧ ReflTransGen edge e y := by
  constructor
  · rintro ⟨N, hy, hN⟩
    by_contra hno
    have hsource : ∀ z, ReflTransGen edge z y → ¬Source edge held z := fun z hz hs =>
      hno ⟨z, hs, hz⟩
    refine not_mem_of_edge (N := {z ∈ N | ReflTransGen edge z y}) hfin ?_ ?_ ⟨hy, .refl⟩
    · rintro z ⟨-, hz⟩ hcycle
      exact hsource z hz (.inr hcycle)
    · rintro z ⟨hz, hzy⟩
      rcases hN z hz with hheld | ⟨x, hx, hxz⟩
      · exact absurd (.inl hheld) (hsource z hzy)
      · exact ⟨x, ⟨hx, .head hxz hzy⟩, hxz⟩
  · rintro ⟨e, hheld | hcycle, hr⟩
    · exact (Anchored.of_held hheld).reach hr
    · exact (Anchored.of_cycle hcycle).reach hr

end Anchoring

end UtilityFramework
