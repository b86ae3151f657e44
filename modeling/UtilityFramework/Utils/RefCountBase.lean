import Mathlib.Algebra.BigOperators.Group.List.Basic
import Mathlib.Algebra.Order.Ring.Int
import Mathlib.Data.Finset.Card
import Mathlib.Data.List.ReduceOption
import UtilityFramework.Lib.Anchored

/-!
# Objects that count their references

`utils::ref_count_base` counts the references to an object; the release of the last one deletes
it. An object owns further objects through the `ref_count_ptr` members of its class, and its
destructor releases these, last member first, so that one release may delete many objects.

The heap lists the objects by their addresses; an address is not given again. An object whose
destructor has begun is no longer in the heap: its members are what the destructor has in
hand. Whoever uses an address at which there is no object touches a deleted one, and the
functions then have no result.

`Counted h refs` is the invariant: each object of the heap counts the references to it, those
of `refs` and those of the members of objects, and there is one at least.
-/

namespace UtilityFramework

open Relation

/-! ### The heap -/

/-- `utils::ref_count_base`, with the members of the derived class that own objects. The count is
an `int`; an object is taken to have less than `2 ^ 31` references. -/
structure RefCountBase where
  refCount : ℤ
  members : List (Option ℕ)

/-- The objects at their addresses. -/
abbrev RefHeap := List (Option RefCountBase)

namespace RefHeap

/-- The object at an address. -/
def get (h : RefHeap) (a : ℕ) : Option RefCountBase := h[a]?.join

/-- `ref_count_base::add_ref`. -/
def addRef (h : RefHeap) (a : ℕ) : Option RefHeap := do
  let o ← h.get a
  some (h.set a (some { o with refCount := o.refCount + 1 }))

/-- The destructors of members: `if (m_ptr) m_ptr->release()` for each. -/
def releaseMembers (release : RefHeap → ℕ → Option RefHeap) (ms : List (Option ℕ))
    (h : RefHeap) : Option RefHeap :=
  ms.foldlM (fun h m => m.elim (some h) (release h)) h

/-- `ref_count_base::release`, if destructors are at most `n` deep in one another. -/
def releaseFrom : ℕ → RefHeap → ℕ → Option RefHeap
  | 0, _, _ => none
  | n + 1, h, a => do
    let o ← h.get a
    let postFetchedRefCount := o.refCount - 1
    if postFetchedRefCount = 0 then
      -- `delete(this)`: members are destroyed in the reverse order of their declaration
      releaseMembers (releaseFrom n) o.members.reverse (h.set a none)
    else some (h.set a (some { o with refCount := postFetchedRefCount }))

/-- `ref_count_base::release`. No more destructors than objects are in one another. -/
def release (h : RefHeap) (a : ℕ) : Option RefHeap := releaseFrom h.length h a

/-- An object whose member is changed. -/
def setMember (h : RefHeap) (x j : ℕ) (v : Option ℕ) : RefHeap :=
  h.modify x (Option.map fun o => { o with members := o.members.set j v })

/-- There is an object at the address. -/
def Alive (h : RefHeap) (a : ℕ) : Prop := (h.get a).isSome

instance (h : RefHeap) (a : ℕ) : Decidable (h.Alive a) := inferInstanceAs (Decidable (_ = true))

/-- The object at `x` owns the one at `y`. -/
def Owns (h : RefHeap) (x y : ℕ) : Prop := ∃ o, h.get x = some o ∧ some y ∈ o.members

/-- The number of members of objects that point to `a`. -/
def memberRefs (h : RefHeap) (a : ℕ) : ℕ :=
  (h.map fun o => (o.elim [] RefCountBase.members).count (some a)).sum

/-- The number of objects. -/
def live (h : RefHeap) : ℕ := ((Finset.range h.length).filter h.Alive).card

/-- Every object counts the references to it. -/
def Counted (h : RefHeap) (refs : List ℕ) : Prop :=
  ∀ a, (h.get a).elim (refs.count a + h.memberRefs a = 0) fun o =>
    o.refCount = refs.count a + h.memberRefs a ∧ 0 < refs.count a + h.memberRefs a

/-- `k` is what is left of `h`: some of its objects, with their members. -/
def LeftOf (k h : RefHeap) : Prop :=
  k.length = h.length ∧
    ∀ a o, k.get a = some o → ∃ o', h.get a = some o' ∧ o'.members = o.members

variable {h k : RefHeap} {a b x y j n : ℕ} {v : Option ℕ} {o : RefCountBase} {refs : List ℕ}

/-! ### Looking up and storing -/

theorem get_eq_some : h.get a = some o ↔ h[a]? = some (some o) := by
  rw [get, Option.join_eq_some_iff]

theorem lt_of_get (ho : h.get a = some o) : a < h.length :=
  (List.getElem?_eq_some_iff.mp (get_eq_some.mp ho)).1

theorem get_set_self (ha : a < h.length) (w : Option RefCountBase) : get (h.set a w) a = w := by
  rw [get, List.getElem?_set_self ha]
  rfl

theorem get_set_of_ne (hab : a ≠ b) (w : Option RefCountBase) :
    get (h.set a w) b = h.get b := by
  rw [get, List.getElem?_set_ne hab, get]

theorem alive_iff : h.Alive a ↔ ∃ o, h.get a = some o := Option.isSome_iff_exists

theorem Alive.of_get (ho : h.get a = some o) : h.Alive a := alive_iff.mpr ⟨o, ho⟩

theorem not_alive_iff : ¬h.Alive a ↔ h.get a = none := by
  rw [Alive, Option.not_isSome_iff_eq_none]

theorem get_setMember_self (ho : h.get x = some o) :
    (h.setMember x j v).get x = some { o with members := o.members.set j v } := by
  rw [get, setMember, List.getElem?_modify_eq, get_eq_some.mp ho]
  rfl

theorem get_setMember_of_ne (hne : x ≠ a) : (h.setMember x j v).get a = h.get a := by
  rw [get, get, setMember, List.getElem?_modify_ne _ _ hne]

theorem alive_setMember : (h.setMember x j v).Alive a ↔ h.Alive a := by
  by_cases hax : x = a
  · subst hax
    rw [Alive, Alive, get, get, setMember, List.getElem?_modify_eq]
    cases h[x]? with
    | none => rfl
    | some o => cases o <;> rfl
  · rw [Alive, get_setMember_of_ne hax, Alive]

theorem alive_set_some (ho : h.get a = some o) (w : RefCountBase) :
    Alive (h.set a (some w)) x ↔ h.Alive x := by
  rcases eq_or_ne a x with rfl | hax
  · rw [Alive, get_set_self (lt_of_get ho), Alive, ho]
    exact Iff.rfl
  · rw [Alive, get_set_of_ne hax, Alive]

theorem not_alive_set_none (ha : a < h.length) : ¬Alive (h.set a none) a := by
  rw [Alive, get_set_self ha]
  exact Bool.false_ne_true

theorem LeftOf.refl (h : RefHeap) : h.LeftOf h := ⟨rfl, fun _ o ho => ⟨o, ho, rfl⟩⟩

theorem LeftOf.trans {i : RefHeap} (hik : i.LeftOf k) (hkh : k.LeftOf h) : i.LeftOf h := by
  refine ⟨hik.1.trans hkh.1, fun a o ho => ?_⟩
  obtain ⟨o', ho', hm⟩ := hik.2 a o ho
  obtain ⟨o'', ho'', hm'⟩ := hkh.2 a o' ho'
  exact ⟨o'', ho'', hm'.trans hm⟩

theorem LeftOf.alive (hk : k.LeftOf h) (ha : k.Alive a) : h.Alive a := by
  obtain ⟨o, ho⟩ := alive_iff.mp ha
  obtain ⟨o', ho', -⟩ := hk.2 a o ho
  exact .of_get ho'

theorem LeftOf.owns (hk : k.LeftOf h) (ho : k.Owns x y) : h.Owns x y := by
  obtain ⟨o, hx, hy⟩ := ho
  obtain ⟨o', hx', hm⟩ := hk.2 x o hx
  exact ⟨o', hx', hm ▸ hy⟩

/-- An object that is left owns what it owned. -/
theorem LeftOf.owns_of_alive (hk : k.LeftOf h) (ho : h.Owns x y) (hx : k.Alive x) :
    k.Owns x y := by
  obtain ⟨o, ho, hy⟩ := ho
  obtain ⟨o', ho'⟩ := alive_iff.mp hx
  obtain ⟨o'', ho'', hm⟩ := hk.2 x o' ho'
  rw [ho, Option.some.injEq] at ho''
  subst ho''
  exact ⟨o', ho', hm ▸ hy⟩

/-- An object is deleted. -/
theorem leftOf_set_none (h : RefHeap) (a : ℕ) : LeftOf (h.set a none) h := by
  refine ⟨List.length_set .., fun b o ho => ⟨o, ?_, rfl⟩⟩
  rcases eq_or_ne a b with rfl | hab
  · rw [get_set_self (by simpa using lt_of_get ho)] at ho
    cases ho
  · rwa [get_set_of_ne hab] at ho

/-- A count is changed. -/
theorem leftOf_set_count (ho : h.get a = some o) (n : ℤ) :
    LeftOf (h.set a (some { o with refCount := n })) h := by
  refine ⟨List.length_set .., fun b o' ho' => ?_⟩
  rcases eq_or_ne a b with rfl | hab
  · rw [get_set_self (lt_of_get ho), Option.some.injEq] at ho'
    subst ho'
    exact ⟨o, ho, rfl⟩
  · rw [get_set_of_ne hab] at ho'
    exact ⟨o', ho', rfl⟩

/-! ### Counting -/

theorem sum_map_set {α : Type*} (f : α → ℕ) {l : List α} {i : ℕ} (hi : i < l.length) (w : α) :
    ((l.set i w).map f).sum + f l[i] = (l.map f).sum + f w := by
  induction l generalizing i with
  | nil => cases hi
  | cons c l ih =>
    cases i with
    | zero =>
      simp only [List.set_cons_zero, List.map_cons, List.sum_cons, List.getElem_cons_zero]
      omega
    | succ i =>
      have := ih (Nat.lt_of_succ_lt_succ hi)
      simp only [List.set_cons_succ, List.map_cons, List.sum_cons, List.getElem_cons_succ]
      omega

theorem count_reduceOption (l : List (Option ℕ)) (b : ℕ) :
    l.reduceOption.count b = l.count (some b) := by
  induction l with
  | nil => rfl
  | cons m l ih =>
    cases m with
    | none => rw [List.reduceOption_cons_of_none, ih, List.count_cons_of_ne (by simp)]
    | some c => simp only [List.reduceOption_cons_of_some, List.count_cons, ih, beq_iff_eq,
        Option.some.injEq]

theorem memberRefs_set (ho : h.get a = some o) (w : Option RefCountBase) (b : ℕ) :
    memberRefs (h.set a w) b + o.members.count (some b) =
      h.memberRefs b + (w.elim [] RefCountBase.members).count (some b) := by
  have ha := lt_of_get ho
  have hget : h[a] = some o := by
    have := get_eq_some.mp ho
    rwa [List.getElem?_eq_getElem ha, Option.some.injEq] at this
  have := sum_map_set (fun o => (o.elim [] RefCountBase.members).count (some b)) ha w
  simp only [hget, Option.elim_some] at this
  exact this

theorem memberRefs_pos : 0 < h.memberRefs a ↔ ∃ x, h.Owns x a := by
  rw [memberRefs, List.sum_pos_iff_exists_pos_nat]
  constructor
  · rintro ⟨n, hn, hpos⟩
    obtain ⟨w, hw, rfl⟩ := List.mem_map.mp hn
    obtain ⟨x, hx, rfl⟩ := List.mem_iff_getElem.mp hw
    cases ho : h[x] with
    | none =>
      rw [ho] at hpos
      cases hpos
    | some o =>
      rw [ho] at hpos
      refine ⟨x, o, get_eq_some.mpr ?_, List.count_pos_iff.mp hpos⟩
      rw [List.getElem?_eq_getElem hx, ho]
  · rintro ⟨x, o, ho, hmem⟩
    refine ⟨_, List.mem_map_of_mem (List.mem_of_getElem? (get_eq_some.mp ho)), ?_⟩
    exact List.count_pos_iff.mpr hmem

theorem live_le_length (h : RefHeap) : h.live ≤ h.length :=
  (Finset.card_filter_le _ _).trans_eq (Finset.card_range _)

theorem LeftOf.live_le (hk : k.LeftOf h) : k.live ≤ h.live := by
  refine Finset.card_le_card fun a ha => ?_
  rw [Finset.mem_filter, Finset.mem_range] at ha ⊢
  exact ⟨hk.1 ▸ ha.1, hk.alive ha.2⟩

theorem live_set_none (ho : h.get a = some o) : live (h.set a none) < h.live := by
  refine Finset.card_lt_card ⟨fun b hb => ?_, fun hle => ?_⟩
  · rw [Finset.mem_filter, Finset.mem_range] at hb ⊢
    exact ⟨(leftOf_set_none h a).1 ▸ hb.1, (leftOf_set_none h a).alive hb.2⟩
  · have hmem := hle (Finset.mem_filter.mpr ⟨Finset.mem_range.mpr (lt_of_get ho), .of_get ho⟩)
    exact not_alive_set_none (lt_of_get ho) (Finset.mem_filter.mp hmem).2

theorem Counted.of_get (hc : h.Counted refs) (ho : h.get a = some o) :
    o.refCount = refs.count a + h.memberRefs a ∧ 0 < refs.count a + h.memberRefs a := by
  have := hc a
  rwa [ho] at this

theorem Counted.alive_iff (hc : h.Counted refs) :
    h.Alive a ↔ a ∈ refs ∨ ∃ x, h.Owns x a := by
  rw [← memberRefs_pos, ← List.count_pos_iff, ← Nat.add_pos_iff_pos_or_pos]
  constructor
  · intro ha
    obtain ⟨o, ho⟩ := RefHeap.alive_iff.mp ha
    exact (hc.of_get ho).2
  · intro hpos
    by_contra hno
    have := hc a
    rw [not_alive_iff.mp hno] at this
    exact hpos.ne' this

/-- The objects that are there are those that are anchored. -/
theorem Counted.alive_iff_anchored (hc : h.Counted refs) :
    h.Alive y ↔ Anchoring.Anchored h.Owns (· ∈ refs) y := by
  constructor
  · intro hy
    refine ⟨{z | h.Alive z}, hy, fun z hz => (hc.alive_iff.mp hz).imp_right ?_⟩
    rintro ⟨x, o, ho, hmem⟩
    exact ⟨x, .of_get ho, o, ho, hmem⟩
  · rintro ⟨N, hy, hN⟩
    exact hc.alive_iff.mpr ((hN y hy).imp_right fun ⟨x, _, hx⟩ => ⟨x, hx⟩)

theorem Counted.perm {refs' : List ℕ} (hc : h.Counted refs) (hp : refs.Perm refs') :
    h.Counted refs' := by
  intro a
  have := hc a
  rwa [hp.count_eq] at this

/-- The count of an object follows the references to it. -/
theorem Counted.set_count {refs' : List ℕ} (hc : h.Counted refs) (ho : h.get a = some o)
    (hother : ∀ b, a ≠ b → refs'.count b = refs.count b) {n : ℤ}
    (hn : n = refs'.count a + h.memberRefs a) (hpos : 0 < refs'.count a + h.memberRefs a) :
    Counted (h.set a (some { o with refCount := n })) refs' := by
  have hrefs (b : ℕ) :
      memberRefs (h.set a (some { o with refCount := n })) b = h.memberRefs b := by
    have := memberRefs_set ho (some { o with refCount := n }) b
    exact Nat.add_right_cancel this
  intro b
  rw [hrefs]
  rcases eq_or_ne a b with rfl | hab
  · rw [get_set_self (lt_of_get ho)]
    exact ⟨hn, hpos⟩
  · have := hc b
    rwa [get_set_of_ne hab, hother b hab]

theorem Counted.addRef (hc : h.Counted refs) (ha : h.Alive a) :
    ∃ k, h.addRef a = some k ∧ k.Counted (a :: refs) ∧ k.LeftOf h ∧
      ∀ y, k.Alive y ↔ h.Alive y := by
  obtain ⟨o, ho⟩ := RefHeap.alive_iff.mp ha
  refine ⟨_, by rw [RefHeap.addRef, ho]; rfl, ?_, leftOf_set_count ho _,
    fun y => alive_set_some ho _⟩
  have hcount : (a :: refs).count a = refs.count a + 1 := List.count_cons_self
  obtain ⟨hn, hpos⟩ := hc.of_get ho
  refine hc.set_count ho (fun b hab => List.count_cons_of_ne hab) ?_ (by omega)
  rw [hcount, hn]
  omega

/-- The last reference goes: the members are references that the destructor has. -/
theorem Counted.set_none (hc : h.Counted (a :: refs)) (ho : h.get a = some o)
    (hlast : o.refCount - 1 = 0) :
    Counted (h.set a none) (o.members.reverse.reduceOption ++ refs) := by
  have hcount : (a :: refs).count a = refs.count a + 1 := List.count_cons_self
  obtain ⟨hn, -⟩ := hc.of_get ho
  intro b
  have hrefs := memberRefs_set ho none b
  rw [Option.elim_none, List.count_nil, Nat.add_zero] at hrefs
  rw [List.count_append, count_reduceOption, List.count_reverse]
  rcases eq_or_ne a b with rfl | hab
  · rw [get_set_self (lt_of_get ho)]
    have : (o.members.count (some a) + refs.count a) + memberRefs (h.set a none) a = 0 := by
      omega
    exact this
  · have := hc b
    rw [get_set_of_ne hab]
    rw [List.count_cons_of_ne hab] at this
    have heq : o.members.count (some b) + refs.count b + memberRefs (h.set a none) b =
        refs.count b + h.memberRefs b := by omega
    rwa [← Nat.cast_add, heq, Nat.cast_add]

/-! ### Releasing -/

theorem releaseMembers_nil {release : RefHeap → ℕ → Option RefHeap} :
    releaseMembers release [] h = some h := rfl

theorem releaseMembers_some {release : RefHeap → ℕ → Option RefHeap} {ms : List (Option ℕ)} :
    releaseMembers release (some a :: ms) h =
      (release h a).bind (releaseMembers release ms) := rfl

theorem releaseFrom_succ : releaseFrom (n + 1) h a = (h.get a).bind fun o =>
    if o.refCount - 1 = 0 then
      releaseMembers (releaseFrom n) o.members.reverse (h.set a none)
    else some (h.set a (some { o with refCount := o.refCount - 1 })) := rfl

theorem releaseFrom_succ_eq_some : releaseFrom (n + 1) h a = some k ↔
    ∃ o, h.get a = some o ∧
      (o.refCount - 1 = 0 ∧
          releaseMembers (releaseFrom n) o.members.reverse (h.set a none) = some k ∨
        o.refCount - 1 ≠ 0 ∧ h.set a (some { o with refCount := o.refCount - 1 }) = k) := by
  rw [releaseFrom_succ]
  refine Option.bind_eq_some_iff.trans (exists_congr fun o => and_congr_right fun _ => ?_)
  split_ifs with hlast
  · simp [hlast]
  · simp [hlast]

theorem alive_of_releaseFrom (hk : releaseFrom n h a = some k) : h.Alive a := by
  cases n with
  | zero => cases hk
  | succ n =>
    obtain ⟨o, ho, -⟩ := releaseFrom_succ_eq_some.mp hk
    exact .of_get ho

/-- What a property of the single releases gives for the members of an object. -/
theorem releaseMembers_induction {release : RefHeap → ℕ → Option RefHeap}
    {P : RefHeap → RefHeap → Prop} (hrefl : ∀ h, P h h)
    (htrans : ∀ h i k, P h i → P i k → P h k)
    (hrelease : ∀ h a k, release h a = some k → P h k) {ms : List (Option ℕ)}
    (hk : releaseMembers release ms h = some k) : P h k := by
  induction ms generalizing h with
  | nil =>
    rw [releaseMembers_nil, Option.some.injEq] at hk
    exact hk ▸ hrefl h
  | cons m ms ih =>
    cases m with
    | none => exact ih hk
    | some a =>
      obtain ⟨i, hi, hik⟩ := Option.bind_eq_some_iff.mp (releaseMembers_some ▸ hk)
      exact htrans h i k (hrelease h a i hi) (ih hik)

theorem leftOf_of_releaseFrom (hk : releaseFrom n h a = some k) : k.LeftOf h := by
  induction n generalizing h a k with
  | zero => cases hk
  | succ n ih =>
    obtain ⟨o, ho, ⟨-, hk⟩ | ⟨-, rfl⟩⟩ := releaseFrom_succ_eq_some.mp hk
    · refine LeftOf.trans ?_ (leftOf_set_none h a)
      exact releaseMembers_induction (P := fun h k => k.LeftOf h) LeftOf.refl
        (fun _ _ _ hi hk => hk.trans hi) (fun _ _ _ => ih) hk
    · exact leftOf_set_count ho _

theorem leftOf_of_releaseMembers {ms : List (Option ℕ)}
    (hk : releaseMembers (releaseFrom n) ms h = some k) : k.LeftOf h :=
  releaseMembers_induction (P := fun h k => k.LeftOf h) LeftOf.refl
    (fun _ _ _ hi hk => hk.trans hi) (fun _ _ _ => leftOf_of_releaseFrom) hk

theorem releaseMembers_congr (hfuel : ∀ h a, live h ≤ n →
      releaseFrom (n + 1) h a = releaseFrom n h a) {ms : List (Option ℕ)} (hlive : h.live ≤ n) :
    releaseMembers (releaseFrom (n + 1)) ms h = releaseMembers (releaseFrom n) ms h := by
  induction ms generalizing h with
  | nil => rfl
  | cons m ms ih =>
    cases m with
    | none => exact ih hlive
    | some a =>
      rw [releaseMembers_some, releaseMembers_some, hfuel h a hlive]
      cases hi : releaseFrom n h a with
      | none => rfl
      | some i => exact ih ((leftOf_of_releaseFrom hi).live_le.trans hlive)

/-- A depth that is the number of the objects is enough. -/
theorem releaseFrom_succ_of_live_le (hlive : h.live ≤ n) :
    releaseFrom (n + 1) h a = releaseFrom n h a := by
  induction n generalizing h a with
  | zero =>
    rw [releaseFrom, releaseFrom]
    cases ho : h.get a with
    | none => rfl
    | some o =>
      have := live_set_none ho
      omega
  | succ n ih =>
    rw [releaseFrom_succ, releaseFrom_succ]
    cases ho : h.get a with
    | none => rfl
    | some o =>
      have := live_set_none ho
      rw [Option.bind_some, Option.bind_some, releaseMembers_congr (fun _ _ => ih) (by omega)]

/-- What a release does: the other references are counted as before, and a set of objects that
are held by them or by one another stays. -/
structure Released (h : RefHeap) (refs : List ℕ) (k : RefHeap) : Prop where
  counted : k.Counted refs
  kept : ∀ N : Set ℕ, (∀ z ∈ N, h.Alive z) → (∀ z ∈ N, z ∈ refs ∨ ∃ x ∈ N, h.Owns x z) →
    ∀ z ∈ N, k.Alive z

/-- Members are released one after the other. -/
theorem exists_releaseMembers
    (ih : ∀ h a refs, live h ≤ n → h.Counted (a :: refs) →
      ∃ k, releaseFrom n h a = some k ∧ Released h refs k) (ms : List (Option ℕ))
    (hlive : h.live ≤ n) (hc : h.Counted (ms.reduceOption ++ refs)) :
    ∃ k, releaseMembers (releaseFrom n) ms h = some k ∧ Released h refs k := by
  induction ms generalizing h with
  | nil => exact ⟨h, rfl, hc, fun _ hN _ => hN⟩
  | cons m ms ihms =>
    cases m with
    | none => exact ihms hlive hc
    | some a =>
      rw [List.reduceOption_cons_of_some] at hc
      obtain ⟨i, hi, hrel⟩ := ih h a _ hlive hc
      have hleft := leftOf_of_releaseFrom hi
      obtain ⟨k, hk, hrel'⟩ := ihms (hleft.live_le.trans hlive) hrel.counted
      refine ⟨k, ?_, hrel'.counted, fun N halive hN => ?_⟩
      · rw [releaseMembers_some, hi]
        exact hk
      · have hmid := hrel.kept N halive fun z hz =>
          (hN z hz).imp_left (List.mem_append_right _)
        exact hrel'.kept N hmid fun z hz => (hN z hz).imp_right fun ⟨x, hx, howns⟩ =>
          ⟨x, hx, hleft.owns_of_alive howns (hmid x hx)⟩

/-- The release of a reference that is counted comes to its end. -/
theorem exists_releaseFrom (hlive : h.live ≤ n) (hc : h.Counted (a :: refs)) :
    ∃ k, releaseFrom n h a = some k ∧ Released h refs k := by
  induction n generalizing h a refs with
  | zero =>
    obtain ⟨o, ho⟩ := RefHeap.alive_iff.mp (hc.alive_iff.mpr (.inl List.mem_cons_self))
    have := live_set_none ho
    omega
  | succ n ih =>
    obtain ⟨o, ho⟩ := RefHeap.alive_iff.mp (hc.alive_iff.mpr (.inl List.mem_cons_self))
    have hlt := live_set_none ho
    have hcount : (a :: refs).count a = refs.count a + 1 := List.count_cons_self
    obtain ⟨hn, -⟩ := hc.of_get ho
    by_cases hlast : o.refCount - 1 = 0
    · obtain ⟨k, hk, hrel⟩ := exists_releaseMembers (fun _ _ _ => ih) o.members.reverse
        (by omega) (hc.set_none ho hlast)
      refine ⟨k, releaseFrom_succ_eq_some.mpr ⟨o, ho, .inl ⟨hlast, hk⟩⟩, hrel.counted,
        fun N halive hN => ?_⟩
      -- there is no further reference to the object that goes
      have hna : ∀ z ∈ N, a ≠ z := by
        rintro z hz rfl
        rcases hN a hz with hmem | ⟨x, -, hx⟩
        · have := List.count_pos_iff.mpr hmem
          omega
        · have := memberRefs_pos.mpr ⟨x, hx⟩
          omega
      refine hrel.kept N (fun z hz => ?_) fun z hz => (hN z hz).imp_right ?_
      · rw [Alive, get_set_of_ne (hna z hz)]
        exact halive z hz
      · rintro ⟨x, hx, o', ho', hmem⟩
        exact ⟨x, hx, o', (get_set_of_ne (hna x hx) none).trans ho', hmem⟩
    · refine ⟨_, releaseFrom_succ_eq_some.mpr ⟨o, ho, .inr ⟨hlast, rfl⟩⟩, ?_,
        fun N halive _ z hz => (alive_set_some ho _).mpr (halive z hz)⟩
      exact hc.set_count ho (fun b hab => (List.count_cons_of_ne hab).symm) (by omega)
        (by omega)

theorem Counted.exists_release (hc : h.Counted (a :: refs)) :
    ∃ k, h.release a = some k ∧ Released h refs k :=
  exists_releaseFrom h.live_le_length hc

/-- **What a release leaves**: the objects that are anchored in the other references. -/
theorem Released.alive_iff (hrel : Released h refs k) (hk : h.release a = some k)
    (hc : h.Counted (a :: refs)) :
    k.Alive y ↔ Anchoring.Anchored h.Owns (· ∈ refs) y := by
  constructor
  · intro hy
    exact (hrel.counted.alive_iff_anchored.mp hy).mono
      (fun _ _ => (leftOf_of_releaseFrom hk).owns) fun _ => id
  · rintro ⟨N, hy, hN⟩
    refine hrel.kept N (fun z hz => ?_) hN y hy
    exact hc.alive_iff.mpr ((hN z hz).imp (List.mem_cons_of_mem a) fun ⟨x, _, hx⟩ => ⟨x, hx⟩)

/-! ### Members that are changed -/

theorem setMember_eq_set (ho : h.get x = some o) :
    h.setMember x j v = h.set x (some { o with members := o.members.set j v }) := by
  rw [setMember, List.modify_eq_set_getElem?, get_eq_some.mp ho]
  rfl

theorem setMember_of_not_alive (hx : ¬h.Alive x) : h.setMember x j v = h := by
  refine List.ext_getElem? fun b => ?_
  rw [setMember, List.getElem?_modify]
  split_ifs with hxb
  · subst hxb
    rw [not_alive_iff, get] at hx
    cases hw : h[x]? with
    | none => rfl
    | some w =>
      rw [hw] at hx
      cases w with
      | none => rfl
      | some o => cases hx
  · cases h[b]? <;> rfl

@[simp] theorem length_setMember : (h.setMember x j v).length = h.length := by
  rw [setMember, List.length_modify]

theorem setMember_setMember (w : Option ℕ) :
    (h.setMember x j v).setMember x j w = h.setMember x j w := by
  by_cases hx : h.Alive x
  · obtain ⟨o, ho⟩ := RefHeap.alive_iff.mp hx
    rw [setMember_eq_set (get_setMember_self ho), setMember_eq_set ho, setMember_eq_set ho,
      List.set_set, List.set_set]
  · rw [setMember_of_not_alive hx, setMember_of_not_alive hx]

theorem setMember_self (ho : h.get x = some o) (hv : o.members[j]? = some v) :
    h.setMember x j v = h := by
  have hm : o.members.set j v = o.members := by
    refine List.ext_getElem? fun i => ?_
    rw [List.getElem?_set]
    split_ifs with hji hj
    · exact hji ▸ hv.symm
    · rw [← hji, List.getElem?_eq_none (Nat.le_of_not_lt hj)]
    · rfl
  rw [setMember_eq_set ho, hm]
  refine List.ext_getElem? fun b => ?_
  rw [List.getElem?_set]
  split_ifs with hxb hx
  · exact hxb ▸ (get_eq_some.mp ho).symm
  · exact absurd (lt_of_get ho) hx
  · rfl

theorem set_setMember_of_ne (hne : a ≠ x) (w : Option RefCountBase) :
    (h.setMember x j v).set a w = setMember (h.set a w) x j v := by
  by_cases hx : h.Alive x
  · obtain ⟨o, ho⟩ := RefHeap.alive_iff.mp hx
    rw [setMember_eq_set ho, setMember_eq_set ((get_set_of_ne hne w).trans ho),
      List.set_comm _ _ hne.symm]
  · rw [setMember_of_not_alive hx, setMember_of_not_alive]
    rwa [Alive, get_set_of_ne hne]

/-- A release does not look at the members of an object that stays. -/
theorem releaseFrom_setMember (hk : releaseFrom n h a = some k) (hx : k.Alive x) (j : ℕ)
    (v : Option ℕ) : releaseFrom n (h.setMember x j v) a = some (k.setMember x j v) := by
  induction n generalizing h a k with
  | zero => cases hk
  | succ n ih =>
    obtain ⟨o, ho, ⟨hlast, hk⟩ | ⟨hlast, rfl⟩⟩ := releaseFrom_succ_eq_some.mp hk
    · have hax : a ≠ x := by
        rintro rfl
        exact not_alive_set_none (lt_of_get ho) ((leftOf_of_releaseMembers hk).alive hx)
      refine releaseFrom_succ_eq_some.mpr ⟨o, (get_setMember_of_ne hax.symm).trans ho,
        .inl ⟨hlast, ?_⟩⟩
      rw [set_setMember_of_ne hax]
      generalize h.set a none = h' at hk
      generalize o.members.reverse = ms at hk
      induction ms generalizing h' with
      | nil =>
        rw [releaseMembers_nil, Option.some.injEq] at hk
        rw [releaseMembers_nil, hk]
      | cons m ms ihms =>
        cases m with
        | none => exact ihms h' hk
        | some b =>
          obtain ⟨i, hi, hik⟩ := Option.bind_eq_some_iff.mp (releaseMembers_some ▸ hk)
          rw [releaseMembers_some, ih hi ((leftOf_of_releaseMembers hik).alive hx)]
          exact ihms i hik
    · rcases eq_or_ne a x with rfl | hax
      · refine releaseFrom_succ_eq_some.mpr ⟨_, get_setMember_self ho, .inr ⟨hlast, ?_⟩⟩
        rw [setMember_eq_set ho, List.set_set, setMember_eq_set (get_set_self (lt_of_get ho) _),
          List.set_set]
      · refine releaseFrom_succ_eq_some.mpr ⟨o, (get_setMember_of_ne hax.symm).trans ho,
          .inr ⟨hlast, ?_⟩⟩
        rw [set_setMember_of_ne hax]

theorem alive_of_releaseMembers {ms : List (Option ℕ)}
    (hk : releaseMembers (releaseFrom n) ms h = some k) (hy : some y ∈ ms) : h.Alive y := by
  induction ms generalizing h with
  | nil => cases hy
  | cons m ms ih =>
    cases m with
    | none => exact ih hk ((List.mem_cons.mp hy).resolve_left (by simp))
    | some b =>
      obtain ⟨i, hi, hik⟩ := Option.bind_eq_some_iff.mp (releaseMembers_some ▸ hk)
      rcases List.mem_cons.mp hy with heq | hmem
      · rw [Option.some.inj heq]
        exact alive_of_releaseFrom hi
      · exact (leftOf_of_releaseFrom hi).alive (ih hik hmem)

/-- Some objects go, and what they own has been there before. -/
def Deleted (h k : RefHeap) : Prop :=
  k.LeftOf h ∧ ∀ x y, h.Owns x y → ¬k.Alive x → h.Alive y

theorem Deleted.refl (h : RefHeap) : Deleted h h :=
  ⟨.refl h, fun _ _ ⟨_, ho, _⟩ hx => absurd (.of_get ho) hx⟩

theorem Deleted.trans {i : RefHeap} (hi : Deleted h i) (hk : Deleted i k) : Deleted h k := by
  refine ⟨hk.1.trans hi.1, fun x y howns hx => ?_⟩
  by_cases hxi : i.Alive x
  · exact hi.1.alive (hk.2 x y (hi.1.owns_of_alive howns hxi) hx)
  · exact hi.2 x y howns hxi

theorem deleted_of_releaseFrom (hk : releaseFrom n h a = some k) : Deleted h k := by
  refine ⟨leftOf_of_releaseFrom hk, ?_⟩
  induction n generalizing h a k with
  | zero => cases hk
  | succ n ih =>
    intro x y howns hx
    obtain ⟨o, ho, ⟨-, hk⟩ | ⟨-, rfl⟩⟩ := releaseFrom_succ_eq_some.mp hk
    · refine (leftOf_set_none h a).alive ?_
      by_cases hax : a = x
      · subst hax
        obtain ⟨o', ho', hy⟩ := howns
        rw [ho, Option.some.injEq] at ho'
        subst ho'
        exact alive_of_releaseMembers hk (List.mem_reverse.mpr hy)
      · have hdel := releaseMembers_induction Deleted.refl (fun _ _ _ => Deleted.trans)
          (fun h b k hk => ⟨leftOf_of_releaseFrom hk, ih hk⟩) hk
        obtain ⟨o', ho', hy⟩ := howns
        exact hdel.2 x y ⟨o', (get_set_of_ne hax none).trans ho', hy⟩ hx
    · obtain ⟨o', ho', -⟩ := howns
      exact absurd ((alive_set_some ho _).mpr (.of_get ho')) hx

/-- The object whose member points to the object that is released stays, if nothing deleted is
touched. -/
theorem alive_owner (hk : releaseFrom n h a = some k) (howns : h.Owns x a) : k.Alive x := by
  cases n with
  | zero => cases hk
  | succ n =>
    by_contra hx
    obtain ⟨o, ho, ⟨-, hk'⟩ | ⟨-, rfl⟩⟩ := releaseFrom_succ_eq_some.mp hk
    · refine not_alive_set_none (lt_of_get ho) ?_
      obtain ⟨o', ho', ha⟩ := howns
      by_cases hax : a = x
      · subst hax
        rw [ho, Option.some.injEq] at ho'
        subst ho'
        exact alive_of_releaseMembers hk' (List.mem_reverse.mpr ha)
      · have hdel := releaseMembers_induction Deleted.refl (fun _ _ _ => Deleted.trans)
          (fun _ _ _ => deleted_of_releaseFrom) hk'
        exact hdel.2 x a ⟨o', (get_set_of_ne hax none).trans ho', ha⟩ hx
    · obtain ⟨o', ho', -⟩ := howns
      exact hx ((alive_set_some ho _).mpr (.of_get ho'))

theorem count_toList (v : Option ℕ) (b : ℕ) : v.toList.count b = if v = some b then 1 else 0 := by
  cases v <;> simp [List.count_singleton]

theorem count_set_add {l : List (Option ℕ)} {u : Option ℕ} (hu : l[j]? = some u) (v : Option ℕ)
    (b : ℕ) :
    (l.set j v).count (some b) + u.toList.count b = l.count (some b) + v.toList.count b := by
  obtain ⟨hj, huj⟩ := List.getElem?_eq_some_iff.mp hu
  have hpos : u = some b → 0 < l.count (some b) := by
    rintro rfl
    exact List.count_pos_iff.mpr (huj ▸ List.getElem_mem hj)
  rw [List.count_set hj, huj, count_toList, count_toList]
  simp only [beq_iff_eq]
  split_ifs <;> simp_all

/-- The value of a member is exchanged for a reference that is at hand. -/
theorem Counted.setMember {u : Option ℕ} (hc : h.Counted (v.toList ++ refs))
    (ho : h.get x = some o) (hu : o.members[j]? = some u) :
    (h.setMember x j v).Counted (u.toList ++ refs) := by
  have heq (b : ℕ) : (u.toList ++ refs).count b + (h.setMember x j v).memberRefs b =
      (v.toList ++ refs).count b + h.memberRefs b := by
    have h1 := memberRefs_set ho (some { o with members := o.members.set j v }) b
    have h2 := count_set_add hu v b
    rw [Option.elim_some] at h1
    rw [setMember_eq_set ho, List.count_append, List.count_append]
    dsimp only at h1
    omega
  intro b
  have := hc b
  rcases eq_or_ne x b with rfl | hxb
  · rw [get_setMember_self ho]
    rw [ho] at this
    exact ⟨this.1.trans (by rw [← Nat.cast_add, ← Nat.cast_add, heq]), (heq x).symm ▸ this.2⟩
  · rwa [get_setMember_of_ne hxb, ← Nat.cast_add, heq, Nat.cast_add]

theorem addRef_setMember (h : RefHeap) (a x j : ℕ) (v : Option ℕ) :
    (h.setMember x j v).addRef a = (h.addRef a).map fun k => k.setMember x j v := by
  rw [addRef, addRef]
  cases ho : h.get a with
  | none => rw [not_alive_iff.mp fun ha => not_alive_iff.mpr ho (alive_setMember.mp ha)]; rfl
  | some o =>
    rcases eq_or_ne x a with rfl | hxa
    · rw [get_setMember_self ho]
      change some _ = some _
      dsimp only
      rw [setMember_eq_set ho, List.set_set, setMember_eq_set (get_set_self (lt_of_get ho) _),
        List.set_set]
    · rw [get_setMember_of_ne hxa, ho]
      change some _ = some _
      rw [set_setMember_of_ne hxa.symm]

end RefHeap

end UtilityFramework
