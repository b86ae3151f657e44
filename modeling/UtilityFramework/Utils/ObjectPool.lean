import Mathlib.Order.Nat
import UtilityFramework.Lib.Transition

/-!
# Pools of objects

`utils::ref_count_object_pool` keeps a reference to each of its items. An item to which there is
no other reference is free: `get_item` searches for one, from the first slot on if the pool is
lazy, otherwise from behind the last item that was found, and creates the items of empty slots on
the way. If there is none, the pool fails or doubles the number of its slots, by its mode.

Items are numbered in the order of their creation, which always succeeds. The references of the
clients are recorded beside the counts that the code has, for the statements.
-/

namespace UtilityFramework

open Transition

/-! ### The pool -/

/-- `growing_mode`. -/
inductive GrowingMode
  | none
  | doubling

/-- `utils::ref_count_object_pool`, with the counts of references of its items and, in `held`,
how many of these its clients have. -/
structure ObjectPool where
  items : List (Option ℕ)
  mode : GrowingMode
  isLazy : Bool
  nextSearchIndex : ℕ
  refCount : ℕ → ℕ
  created : ℕ
  held : ℕ → ℕ

/-- What `get_item` does: it gives an item, returns `false`, or throws. -/
inductive GetItem
  | item (item : ℕ)
  | failed
  | threw

/-- Calls of `get_item`, and what clients do with the references they have. -/
inductive PoolStep
  | getItem
  | addRef (item : ℕ)
  | release (item : ℕ)

namespace ObjectPool

/-- `m_create_object` for a slot: a new item, to which the pool has the reference. -/
def createObject (s : ObjectPool) (index : ℕ) : ObjectPool :=
  { s with
    items := s.items.set index (some s.created)
    refCount := Function.update s.refCount s.created 1
    created := s.created + 1 }

/-- The loop of the constructors over the `n` slots from `i` on. -/
def createObjects : ℕ → ℕ → ObjectPool → ObjectPool
  | 0, _, s => s
  | n + 1, i, s => createObjects n (i + 1) (s.createObject i)

/-- The constructors. -/
def new (size : ℕ) (mode : GrowingMode) (isLazy : Bool) : ObjectPool :=
  let s : ObjectPool := ⟨List.replicate size none, mode, isLazy, 0, fun _ => 0, 0, fun _ => 0⟩
  if isLazy then s else createObjects size 0 s

/-- The slot that the search looks at in its turn `i`. -/
def searchIndex (s : ObjectPool) (i : ℕ) : ℕ :=
  if s.isLazy then i else (s.nextSearchIndex + i) % s.items.length

/-- An empty slot gets its item. -/
def fill (s : ObjectPool) (index : ℕ) : ObjectPool :=
  match s.items[index]? with
  | some none => s.createObject index
  | _ => s

/-- The item is given to the client. -/
def give (s : ObjectPool) (index item : ℕ) : ObjectPool :=
  { s with
    nextSearchIndex := (index + 1) % s.items.length
    refCount := Function.update s.refCount item (s.refCount item + 1)
    held := Function.update s.held item (s.held item + 1) }

/-- The loop of `query_item`, in its turn `i` and with `n` turns left. -/
def queryFrom : ℕ → ℕ → ObjectPool → ObjectPool × Option ℕ
  | 0, _, s => (s, none)
  | n + 1, i, s =>
    let t := s.fill (s.searchIndex i)
    match t.items[s.searchIndex i]? with
    | some (some item) =>
      if t.refCount item = 1 then (t.give (s.searchIndex i) item, some item)
      else queryFrom n (i + 1) t
    | _ => (t, none)

/-- `query_item`. -/
def queryItem (s : ObjectPool) : ObjectPool × Option ℕ := queryFrom s.items.length 0 s

/-- `m_items.resize(m_items.size() * 2)`. -/
def resize (s : ObjectPool) : ObjectPool :=
  { s with items := s.items ++ List.replicate s.items.length none }

/-- `get_item`, with a place for the item. -/
def getItem (s : ObjectPool) : ObjectPool × GetItem :=
  match s.queryItem with
  | (t, some item) => (t, .item item)
  | (t, none) =>
    match t.mode with
    | .none => (t, .failed)
    | .doubling =>
      match t.resize.queryItem with
      | (u, some item) => (u, .item item)
      | (u, none) => (u, .threw)

/-- One step. Only a client that has a reference to an item uses it. -/
def step (s : ObjectPool) : PoolStep → Option ObjectPool
  | .getItem => some s.getItem.1
  | .addRef item =>
    if s.held item = 0 then none
    else some { s with
      refCount := Function.update s.refCount item (s.refCount item + 1)
      held := Function.update s.held item (s.held item + 1) }
  | .release item =>
    if s.held item = 0 then none
    else some { s with
      refCount := Function.update s.refCount item (s.refCount item - 1)
      held := Function.update s.held item (s.held item - 1) }

/-- All items are held by clients, so that there is no empty slot either. -/
def AllHeld (s : ObjectPool) : Prop := ∀ slot ∈ s.items, ∃ item, slot = some item ∧ 0 < s.held item

/-! ### The counts -/

/-- The pool has one reference to each of its items, and its clients have the others. -/
structure Inv (s : ObjectPool) : Prop where
  pos : 0 < s.items.length
  lt : ∀ item, some item ∈ s.items → item < s.created
  refCount_eq : ∀ item, some item ∈ s.items → s.refCount item = s.held item + 1
  held_eq : ∀ item, s.created ≤ item → s.held item = 0

variable {s t : ObjectPool}

theorem Inv.createObject (h : s.Inv) (index : ℕ) : (s.createObject index).Inv := by
  have hmem {item : ℕ} (hitem : some item ∈ s.items.set index (some s.created)) :
      some item ∈ s.items ∨ item = s.created :=
    (List.mem_or_eq_of_mem_set hitem).imp_right Option.some.inj
  refine ⟨(List.length_set ..).symm ▸ h.pos, fun item hitem => ?_, fun item hitem => ?_,
    fun item hle => h.held_eq item (Nat.le_of_succ_le hle)⟩
  · rcases hmem hitem with hold | rfl
    · exact (h.lt item hold).trans (Nat.lt_succ_self _)
    · exact Nat.lt_succ_self _
  · rcases hmem hitem with hold | rfl
    · exact (Function.update_of_ne (h.lt item hold).ne _ _).trans (h.refCount_eq item hold)
    · refine (Function.update_self ..).trans ?_
      exact congrArg (· + 1) (h.held_eq s.created le_rfl).symm

/-- Giving, adding and releasing references changes both counts of an item. -/
theorem Inv.update (h : s.Inv) {item held : ℕ} {refCount : ℕ} (nextSearchIndex : ℕ)
    (hcount : some item ∈ s.items → refCount = held + 1) (hmade : item < s.created) :
    ({ s with
      nextSearchIndex := nextSearchIndex
      refCount := Function.update s.refCount item refCount
      held := Function.update s.held item held } : ObjectPool).Inv := by
  refine ⟨h.pos, h.lt, fun j hj => ?_, fun j hle => ?_⟩
  · rcases eq_or_ne j item with rfl | hne
    · simp only [Function.update_self]
      exact hcount hj
    · simp only [Function.update_of_ne hne]
      exact h.refCount_eq j hj
  · exact (Function.update_of_ne (hmade.trans_le hle).ne' _ _).trans (h.held_eq j hle)

theorem Inv.resize (h : s.Inv) : s.resize.Inv := by
  have hmem {item : ℕ} (hitem : some item ∈ s.resize.items) : some item ∈ s.items :=
    (List.mem_append.mp hitem).resolve_right fun hnone =>
      Option.some_ne_none item (List.eq_of_mem_replicate hnone)
  exact ⟨h.pos.trans_le (List.length_append ▸ Nat.le_add_right ..), fun item hitem =>
    h.lt item (hmem hitem), fun item hitem => h.refCount_eq item (hmem hitem), h.held_eq⟩

theorem Inv.createObjects (h : s.Inv) (n i : ℕ) : (createObjects n i s).Inv := by
  induction n generalizing i s with
  | zero => exact h
  | succ n ih => exact ih (h.createObject i) (i + 1)

theorem inv_new {size : ℕ} (hsize : 0 < size) (mode : GrowingMode) (isLazy : Bool) :
    (new size mode isLazy).Inv := by
  have hmem (item : ℕ) : some item ∉ List.replicate size (none : Option ℕ) := fun hitem =>
    Option.some_ne_none item (List.eq_of_mem_replicate hitem)
  have hempty : (⟨List.replicate size none, mode, isLazy, 0, fun _ => 0, 0, fun _ => 0⟩ :
      ObjectPool).Inv :=
    ⟨List.length_replicate.symm ▸ hsize, fun item hitem => absurd hitem (hmem item),
      fun item hitem => absurd hitem (hmem item), fun _ _ => rfl⟩
  rw [new]
  split_ifs
  · exact hempty
  · exact hempty.createObjects size 0

/-! ### The search -/

theorem searchIndex_lt {i : ℕ} (h : i < s.items.length) : s.searchIndex i < s.items.length := by
  rw [searchIndex]
  split_ifs
  · exact h
  · exact Nat.mod_lt _ (Nat.zero_lt_of_lt h)

/-- The search comes to every slot. -/
theorem exists_searchIndex_eq {index : ℕ} (h : index < s.items.length) :
    ∃ i < s.items.length, s.searchIndex i = index := by
  by_cases hlazy : s.isLazy = true
  · exact ⟨index, h, if_pos hlazy⟩
  · -- the turn in which it has gone around to the slot
    have hpos := Nat.zero_lt_of_lt h
    refine ⟨(index + (s.items.length - s.nextSearchIndex % s.items.length)) % s.items.length,
      Nat.mod_lt _ hpos, (if_neg hlazy).trans ?_⟩
    have hle := (Nat.mod_lt s.nextSearchIndex hpos).le
    have hsum : s.nextSearchIndex % s.items.length +
        (index + (s.items.length - s.nextSearchIndex % s.items.length)) =
          index + s.items.length := by omega
    rw [Nat.add_mod_mod, ← Nat.mod_add_mod, hsum, Nat.add_mod_right, Nat.mod_eq_of_lt h]

theorem mode_fill (s : ObjectPool) (index : ℕ) : (s.fill index).mode = s.mode := by
  rw [fill]
  split <;> rfl

/-- An empty slot gets a new item, and another slot keeps its own. -/
theorem fill_spec (h : s.Inv) {index : ℕ} (hindex : index < s.items.length) :
    (s.fill index).Inv ∧ ∃ item, (s.fill index).items[index]? = some (some item) ∧
      (s.items[index]? = some none ∧ s.held item = 0 ∧ (s.fill index).refCount item = 1 ∨
        s.items[index]? = some (some item) ∧ s.fill index = s) := by
  rw [fill]
  split
  · rename_i hnone
    refine ⟨h.createObject index, s.created, List.getElem?_set_self hindex,
      .inl ⟨hnone, h.held_eq s.created le_rfl, Function.update_self ..⟩⟩
  · rename_i hnot
    refine ⟨h, ?_⟩
    cases hslot : s.items[index]? with
    | none => exact absurd (List.getElem?_eq_none_iff.mp hslot) hindex.not_ge
    | some slot =>
      cases slot with
      | none => exact absurd hslot hnot
      | some item => exact ⟨item, rfl, .inr ⟨rfl, rfl⟩⟩

/-- What a client gets was free. -/
structure Found (s : ObjectPool) (item : ℕ) (t : ObjectPool) : Prop where
  held_eq_zero : s.held item = 0
  not_allHeld : ¬s.AllHeld
  inv : t.Inv
  mode_eq : t.mode = s.mode

/-- **The search** finds an item that is free, or has seen that the items are not. -/
theorem queryFrom_spec (h : s.Inv) {n i : ℕ} (hn : i + n = s.items.length) :
    (∃ t item, queryFrom n i s = (t, some item) ∧ s.Found item t) ∨
      queryFrom n i s = (s, none) ∧ ∀ j, i ≤ j → j < s.items.length →
        ∃ item, s.items[s.searchIndex j]? = some (some item) ∧ 0 < s.held item := by
  induction n generalizing i with
  | zero => exact .inr ⟨rfl, fun j hij hj => absurd hij (by omega)⟩
  | succ n ih =>
    have hlt : s.searchIndex i < s.items.length := searchIndex_lt (by omega)
    obtain ⟨hinv, item, hitem, hcases⟩ := fill_spec h hlt
    have hmade : item < (s.fill (s.searchIndex i)).created :=
      hinv.lt item (List.mem_of_getElem? hitem)
    simp only [queryFrom, hitem]
    rcases hcases with ⟨hnone, hheld, hcount⟩ | ⟨hsome, hfill⟩
    · -- the slot was empty
      rw [if_pos hcount]
      refine .inl ⟨_, item, rfl, hheld, fun hall => ?_,
        hinv.update _ (fun hmem => ?_) hmade, mode_fill s _⟩
      · obtain ⟨item', hitem', -⟩ := hall none (List.mem_of_getElem? hnone)
        cases hitem'
      · rw [hinv.refCount_eq item hmem]
    · rw [hfill] at hmade ⊢
      have hmem := List.mem_of_getElem? hsome
      by_cases hcount : s.refCount item = 1
      · rw [if_pos hcount]
        have hheld : s.held item = 0 := by
          have := h.refCount_eq item hmem
          omega
        refine .inl ⟨_, item, rfl, hheld, fun hall => ?_,
          h.update _ (fun hmem => ?_) hmade, rfl⟩
        · obtain ⟨item', hitem', hpos⟩ := hall _ hmem
          obtain rfl := Option.some.inj hitem'
          exact hpos.ne' hheld
        · rw [h.refCount_eq item hmem]
      · -- the item is held, and the search goes on
        rw [if_neg hcount]
        refine (ih (by omega)).imp_right fun hrest => ⟨hrest.1, fun j hij hj => ?_⟩
        rcases hij.eq_or_lt with rfl | hij
        · have := h.refCount_eq item hmem
          exact ⟨item, hsome, by omega⟩
        · exact hrest.2 j hij hj

/-- `query_item` finds an item if there is one. -/
theorem queryItem_spec (h : s.Inv) :
    (∃ t item, s.queryItem = (t, some item) ∧ s.Found item t) ∨
      s.queryItem = (s, none) ∧ s.AllHeld := by
  refine (queryFrom_spec h (Nat.zero_add _)).imp_right fun hnone => ⟨hnone.1, fun slot hslot => ?_⟩
  obtain ⟨index, hindex, rfl⟩ := List.getElem_of_mem hslot
  obtain ⟨i, hi, hsearch⟩ := exists_searchIndex_eq hindex
  obtain ⟨item, hitem, hheld⟩ := hnone.2 i (Nat.zero_le i) hi
  rw [hsearch, List.getElem?_eq_getElem hindex] at hitem
  exact ⟨item, Option.some.inj hitem, hheld⟩

/-- Twice as many slots are not all held. -/
theorem Inv.not_allHeld_resize (h : s.Inv) : ¬s.resize.AllHeld := by
  intro hall
  have hmem : none ∈ s.resize.items :=
    List.mem_append_right _ (List.mem_replicate.mpr ⟨h.pos.ne', rfl⟩)
  obtain ⟨item, hitem, -⟩ := hall none hmem
  cases hitem

/-! ### Calls -/

/-- What `get_item` does, by the mode of the pool. -/
structure GetItemSpec (s : ObjectPool) (mode : GrowingMode) (r : GetItem) : Prop where
  held_eq_zero : ∀ item, r = .item item → s.held item = 0
  none_or_item : mode = .none → r = .failed ∨ ∃ item, r = .item item
  failed_iff : mode = .none → (r = .failed ↔ s.AllHeld)
  doubling : mode = .doubling → ∃ item, r = .item item

theorem Found.getItemSpec {item : ℕ} (h : s.Found item t) (mode : GrowingMode) :
    s.GetItemSpec mode (.item item) where
  held_eq_zero _ heq := GetItem.item.inj heq ▸ h.held_eq_zero
  none_or_item _ := .inr ⟨item, rfl⟩
  failed_iff _ := iff_of_false (by intro heq; cases heq) h.not_allHeld
  doubling _ := ⟨item, rfl⟩

/-- **One call** of `get_item`. -/
theorem getItem_spec (h : s.Inv) :
    s.getItem.1.Inv ∧ s.getItem.1.mode = s.mode ∧ s.GetItemSpec s.mode s.getItem.2 := by
  rw [getItem]
  rcases queryItem_spec h with ⟨t, item, hquery, hfound⟩ | ⟨hquery, hall⟩
  · rw [hquery]
    exact ⟨hfound.inv, hfound.mode_eq, hfound.getItemSpec s.mode⟩
  · rw [hquery]
    dsimp only
    cases hmode : s.mode with
    | none =>
      exact ⟨h, hmode, {
        held_eq_zero := fun _ heq => by cases heq
        none_or_item := fun _ => .inl rfl
        failed_iff := fun _ => iff_of_true rfl hall
        doubling := fun heq => by cases heq }⟩
    | doubling =>
      rcases queryItem_spec h.resize with ⟨t, item, hquery', hfound⟩ | ⟨-, hall'⟩
      · rw [hquery']
        exact ⟨hfound.inv, hfound.mode_eq.trans hmode, {
          held_eq_zero := fun _ heq => GetItem.item.inj heq ▸ hfound.held_eq_zero
          none_or_item := fun heq => by cases heq
          failed_iff := fun heq => by cases heq
          doubling := fun _ => ⟨item, rfl⟩ }⟩
      · exact absurd hall' h.not_allHeld_resize

/-- Every step keeps the counts and the mode. -/
theorem Inv.step (h : s.Inv) {a : PoolStep} (ht : s.step a = some t) :
    t.Inv ∧ t.mode = s.mode := by
  have hmade {item : ℕ} (hheld : s.held item ≠ 0) : item < s.created :=
    not_le.mp fun hle => hheld (h.held_eq item hle)
  cases a with
  | getItem =>
    obtain ⟨hinv, hmode, -⟩ := getItem_spec h
    exact Option.some.inj ht ▸ ⟨hinv, hmode⟩
  | addRef item =>
    rw [ObjectPool.step] at ht
    split_ifs at ht with hheld
    obtain rfl := Option.some.inj ht
    exact ⟨h.update s.nextSearchIndex (fun hmem => by rw [h.refCount_eq item hmem])
      (hmade hheld), rfl⟩
  | release item =>
    rw [ObjectPool.step] at ht
    split_ifs at ht with hheld
    obtain rfl := Option.some.inj ht
    refine ⟨h.update s.nextSearchIndex (fun hmem => ?_) (hmade hheld), rfl⟩
    have := h.refCount_eq item hmem
    omega

theorem mode_new (size : ℕ) (mode : GrowingMode) (isLazy : Bool) :
    (new size mode isLazy).mode = mode := by
  have hcreate (n i : ℕ) (s : ObjectPool) : (createObjects n i s).mode = s.mode := by
    induction n generalizing i s with
    | zero => rfl
    | succ n ih => exact ih (i + 1) (s.createObject i)
  rw [new]
  split_ifs
  · rfl
  · exact hcreate size 0 _

/-- **Pools.** Whatever is done with a pool that begins with at least one slot, and with its
items, `get_item` gives no item that a client holds. In mode `none` it fails if and only if all
items are held, and in mode `doubling` it gives an item. -/
theorem getItemSpec_of_run {size : ℕ} (hsize : 1 ≤ size) {mode : GrowingMode} {isLazy : Bool}
    {l : List PoolStep} (hr : run step (new size mode isLazy) l = some s) :
    s.GetItemSpec mode s.getItem.2 := by
  obtain ⟨hinv, hmode⟩ : s.Inv ∧ s.mode = mode := by
    refine run_invariant (J := fun s => s.Inv ∧ s.mode = mode) hr (fun s a t h hstep => ?_)
      ⟨inv_new hsize mode isLazy, mode_new size mode isLazy⟩
    obtain ⟨hinv, hmode⟩ := h.1.step hstep
    exact ⟨hinv, hmode.trans h.2⟩
  exact hmode ▸ (getItem_spec hinv).2.2

/-- A pool of two items fails when both are held, and gives the first one again when it is
released. -/
theorem getItemSpec_of_run_two : ∃ s t,
    run step (new 2 .none false) [.getItem, .getItem] = some s ∧ s.getItem.2 = .failed ∧
      s.AllHeld ∧ s.step (.release 0) = some t ∧ t.getItem.2 = .item 0 := by
  refine ⟨_, _, rfl, rfl, ?_, rfl, rfl⟩
  exact ((getItemSpec_of_run (l := [.getItem, .getItem]) (by decide) rfl).failed_iff rfl).mp rfl

end ObjectPool

end UtilityFramework
