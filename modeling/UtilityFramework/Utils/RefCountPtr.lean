import UtilityFramework.Lib.Transition
import UtilityFramework.Utils.RefCountBase

/-!
# Counted pointers

`utils::ref_count_ptr` keeps a reference to an object in `m_ptr`, and the objects that count
their references own others through such pointers. Pointers are outside of objects, as locals
and members of what is not counted, or they are members of objects; raw references are what
`new`, `detach` and `add_ref` leave with the caller, who gives them back by `attach` or
`release`.

An assignment releases the object that the pointer has before it takes a reference to the new
one. The new one, and the pointers that the assignment reads or writes afterwards, must
therefore stay when the old one goes: `p = p->next` reads a deleted object if `p` has the last
reference to its object and this one has the last one to the next. `always_running_iff` says
that nothing else goes wrong in any run, and `counted_of_run` what holds in the states of such
runs: every object counts its references, and the objects that are there are those that can be
reached from a pointer outside of objects, from a raw reference or from a cycle of members.
-/

namespace UtilityFramework

open Relation Transition

/-! ### Pointers -/

/-- Where a `ref_count_ptr` is: outside of objects, or a member of the object at `x`. -/
inductive RefLoc
  | root (i : ℕ)
  | member (x j : ℕ)
  deriving DecidableEq

/-- The heap, the pointers outside of objects, and the raw references of the caller. -/
structure RefState where
  heap : RefHeap
  roots : List (Option ℕ)
  raws : List ℕ

/-- What is done with pointers and raw references. -/
inductive RefOp
  | new (members : ℕ)
  | addRef (a : ℕ)
  | releaseRaw (a : ℕ)
  | construct (other : Option ℕ)
  | constructCopy (q : RefLoc)
  | constructMove (q : RefLoc)
  | assignRaw (p : RefLoc) (other : Option ℕ)
  | assignCopy (p q : RefLoc)
  | assignMove (p q : RefLoc)
  | attach (p : RefLoc) (other : Option ℕ)
  | detach (p : RefLoc)
  | release (p : RefLoc)

namespace RefState

/-- `m_ptr` of the pointer at a place, if there is one. -/
def ptr (s : RefState) : RefLoc → Option (Option ℕ)
  | .root i => s.roots[i]?
  | .member x j => (s.heap.get x).bind fun o => o.members[j]?

/-- The state with another value of `m_ptr`. -/
def setPtr (s : RefState) (p : RefLoc) (v : Option ℕ) : RefState :=
  match p with
  | .root i => { s with roots := s.roots.set i v }
  | .member x j => { s with heap := s.heap.setMember x j v }

/-- `m_ptr = v`. -/
def store (s : RefState) (p : RefLoc) (v : Option ℕ) : Option RefState :=
  (s.ptr p).map fun _ => s.setPtr p v

/-- `add_ref` of an object. -/
def addRef (s : RefState) (a : ℕ) : Option RefState :=
  (s.heap.addRef a).map fun h => { s with heap := h }

/-- `if (m_ptr) m_ptr->add_ref()`. -/
def acquire (s : RefState) (v : Option ℕ) : Option RefState := v.elim (some s) s.addRef

/-- `release` of an object. -/
def releaseObject (s : RefState) (a : ℕ) : Option RefState :=
  (s.heap.release a).map fun h => { s with heap := h }

/-- `ref_count_ptr::release`, and the destructor. -/
def release (s : RefState) (p : RefLoc) : Option RefState := do
  match ← s.ptr p with
  | none => some s
  | some a => (← s.releaseObject a).store p none

/-- `new`: an object with the reference of its creator, and with null pointers as members. -/
def new (s : RefState) (members : ℕ) : RefState :=
  { s with
    heap := s.heap ++ [some ⟨1, List.replicate members none⟩]
    raws := s.heap.length :: s.raws }

/-- The constructor from a raw pointer. -/
def construct (s : RefState) (other : Option ℕ) : Option RefState := do
  let s ← s.acquire other
  some { s with roots := s.roots ++ [other] }

/-- The copy constructor. -/
def constructCopy (s : RefState) (q : RefLoc) : Option RefState := do
  s.construct (← s.ptr q)

/-- The move constructor. -/
def constructMove (s : RefState) (q : RefLoc) : Option RefState := do
  (← s.construct (← s.ptr q)).release q

/-- `operator=(T* other)`. -/
def assignRaw (s : RefState) (p : RefLoc) (other : Option ℕ) : Option RefState := do
  let m ← s.ptr p
  if m ≠ none ∧ other ≠ none ∧ m = other then some s
  else
    let s ← s.release p
    match other with
    | none => some s
    | some b => (← s.addRef b).store p (some b)

/-- `operator=(const ref_count_ptr& other)`. -/
def assignCopy (s : RefState) (p q : RefLoc) : Option RefState := do
  let other ← s.ptr q
  let m ← s.ptr p
  if m = other then some s
  else
    let s ← s.release p
    (← s.store p other).acquire other

/-- `operator=(ref_count_ptr&& other)`. -/
def assignMove (s : RefState) (p q : RefLoc) : Option RefState := do
  let s ← s.release p
  let other ← s.ptr q
  (← (← s.store p other).acquire other).release q

/-- `attach` releases what `m_ptr` has. If `ref_count` is then 0, the object was deleted. -/
def attachRelease (s : RefState) (other : Option ℕ) : Option ℕ → Option RefState
  | none => some s
  | some a => do
    let t ← s.releaseObject a
    -- `assert(m_ptr != other)`
    if ¬t.heap.Alive a ∧ some a = other then none else some t

/-- `attach`: the pointer takes over the reference of the caller. -/
def attach (s : RefState) (p : RefLoc) (other : Option ℕ) : Option RefState := do
  let t ← s.attachRelease other (← s.ptr p)
  let t ← t.store p other
  some { t with raws := t.raws.diff other.toList }

/-- `detach`: the caller takes over the reference of the pointer. -/
def detach (s : RefState) (p : RefLoc) : Option RefState := do
  let m ← s.ptr p
  let s ← s.store p none
  some { s with raws := m.toList ++ s.raws }

/-- The operation, if no deleted object is touched. -/
def exec (s : RefState) : RefOp → Option RefState
  | .new members => some (s.new members)
  | .addRef a => do
    let s ← s.addRef a
    some { s with raws := a :: s.raws }
  | .releaseRaw a => { s with raws := s.raws.erase a }.releaseObject a
  | .construct other => s.construct other
  | .constructCopy q => s.constructCopy q
  | .constructMove q => s.constructMove q
  | .assignRaw p other => s.assignRaw p other
  | .assignCopy p q => s.assignCopy p q
  | .assignMove p q => s.assignMove p q
  | .attach p other => s.attach p other
  | .detach p => s.detach p
  | .release p => s.release p

/-- What a caller keeps to: pointers are where it says, raw pointers are to objects, and a raw
reference is given back by one who has it. -/
def Enabled (s : RefState) : RefOp → Prop
  | .new _ => True
  | .addRef a => s.heap.Alive a
  | .releaseRaw a => a ∈ s.raws
  | .construct other => ∀ b ∈ other, s.heap.Alive b
  | .constructCopy q => (s.ptr q).isSome
  | .constructMove q => (s.ptr q).isSome
  | .assignRaw p other => (s.ptr p).isSome ∧ ∀ b ∈ other, s.heap.Alive b
  | .assignCopy p q => (s.ptr p).isSome ∧ (s.ptr q).isSome
  | .assignMove p q => (s.ptr p).isSome ∧ (s.ptr q).isSome
  | .attach p other => (s.ptr p).isSome ∧ ∀ b ∈ other, b ∈ s.raws
  | .detach p => (s.ptr p).isSome
  | .release p => (s.ptr p).isSome

instance (s : RefState) : ∀ op, Decidable (s.Enabled op)
  | .new _ => inferInstanceAs (Decidable True)
  | .addRef a => inferInstanceAs (Decidable (s.heap.Alive a))
  | .releaseRaw a => inferInstanceAs (Decidable (a ∈ s.raws))
  | .construct other => inferInstanceAs (Decidable (∀ b ∈ other, s.heap.Alive b))
  | .constructCopy q | .constructMove q | .detach q | .release q =>
    inferInstanceAs (Decidable ((s.ptr q).isSome = true))
  | .assignRaw p other =>
    inferInstanceAs (Decidable ((s.ptr p).isSome = true ∧ ∀ b ∈ other, s.heap.Alive b))
  | .assignCopy p q | .assignMove p q =>
    inferInstanceAs (Decidable ((s.ptr p).isSome = true ∧ (s.ptr q).isSome = true))
  | .attach p other =>
    inferInstanceAs (Decidable ((s.ptr p).isSome = true ∧ ∀ b ∈ other, b ∈ s.raws))

end RefState

/-- A program, which has touched a deleted object or not. -/
inductive RefMachine
  | running (s : RefState)
  | faulted

namespace RefMachine

/-- The start: there are no objects and no pointers. -/
def start : RefMachine := .running ⟨[], [], []⟩

/-- One step. -/
def step : RefMachine → RefOp → Option RefMachine
  | .running s, op => if s.Enabled op then some ((s.exec op).elim .faulted .running) else none
  | .faulted, _ => none

end RefMachine

namespace RefState

/-! ### What is there -/

/-- The object at `y` is held from outside of objects. -/
def Held (s : RefState) (y : ℕ) : Prop := y ∈ s.raws ∨ ∃ i, s.ptr (.root i) = some (some y)

/-- A member of the object at `x` points to the object at `y`. -/
def Owns (s : RefState) (x y : ℕ) : Prop := ∃ j, s.ptr (.member x j) = some (some y)

/-- The object at `y` stays if the pointer at `p` gives its reference up: it is held by other
pointers, or belongs to objects that hold one another. -/
def Survives (s : RefState) (p : RefLoc) (y : ℕ) : Prop :=
  Anchoring.Anchored (s.setPtr p none).Owns (s.setPtr p none).Held y

/-- The pointer at `q` stays if the one at `p` gives its reference up. -/
def PtrSurvives (s : RefState) (p : RefLoc) : RefLoc → Prop
  | .root _ => True
  | .member x _ => s.Survives p x

/-- The condition under which an operation touches no deleted object. -/
def Ok (s : RefState) : RefOp → Prop
  | .new _ => True
  | .addRef _ => True
  | .releaseRaw _ => True
  | .construct _ => True
  | .constructCopy _ => True
  | .constructMove _ => True
  | .assignRaw p other =>
    s.ptr p = some other ∨ s.PtrSurvives p p ∧ ∀ b ∈ other, s.Survives p b
  | .assignCopy p q =>
    s.ptr p = s.ptr q ∨ s.PtrSurvives p p ∧ ∀ b, s.ptr q = some (some b) → s.Survives p b
  | .assignMove p q => s.PtrSurvives p p ∧ s.PtrSurvives p q
  | .attach p _ => s.PtrSurvives p p
  | .detach _ => True
  | .release p => s.PtrSurvives p p

/-- The references that objects must count besides those of members. -/
def refs (s : RefState) : List ℕ := s.raws ++ s.roots.reduceOption

/-- The invariant. -/
def Counted (s : RefState) : Prop := s.heap.Counted s.refs

variable {s t : RefState} {p q : RefLoc} {u v : Option ℕ} {a b x y : ℕ}

theorem ptr_member_eq_some {j : ℕ} : s.ptr (.member x j) = some v ↔
    ∃ o, s.heap.get x = some o ∧ o.members[j]? = some v := Option.bind_eq_some_iff

theorem ptr_setPtr_self (hp : s.ptr p = some u) (v : Option ℕ) :
    (s.setPtr p v).ptr p = some v := by
  cases p with
  | root i => exact List.getElem?_set_self (List.getElem?_eq_some_iff.mp hp).1
  | member x j =>
    obtain ⟨o, ho, hj⟩ := ptr_member_eq_some.mp hp
    refine ptr_member_eq_some.mpr ⟨_, RefHeap.get_setMember_self ho, ?_⟩
    exact List.getElem?_set_self (List.getElem?_eq_some_iff.mp hj).1

theorem ptr_setPtr_of_ne (hqp : q ≠ p) (v : Option ℕ) : (s.setPtr p v).ptr q = s.ptr q := by
  cases p with
  | root i =>
    cases q with
    | root k => exact List.getElem?_set_ne fun hik => hqp (congrArg RefLoc.root hik.symm)
    | member x j => rfl
  | member x j =>
    cases q with
    | root k => rfl
    | member y k =>
      rcases eq_or_ne x y with rfl | hxy
      · by_cases hx : s.heap.Alive x
        · obtain ⟨o, ho⟩ := RefHeap.alive_iff.mp hx
          change (RefHeap.get (RefHeap.setMember ..) x).bind _ = (RefHeap.get _ x).bind _
          rw [RefHeap.get_setMember_self ho, ho]
          exact List.getElem?_set_ne fun hjk => hqp (congrArg (RefLoc.member x) hjk.symm)
        · rw [setPtr, RefHeap.setMember_of_not_alive hx]
      · change (RefHeap.get (RefHeap.setMember ..) y).bind _ = (RefHeap.get _ y).bind _
        rw [RefHeap.get_setMember_of_ne hxy]

theorem setPtr_setPtr (s : RefState) (p : RefLoc) (u v : Option ℕ) :
    (s.setPtr p u).setPtr p v = s.setPtr p v := by
  cases p with
  | root i => simp only [setPtr, List.set_set]
  | member x j => simp only [setPtr, RefHeap.setMember_setMember]

theorem setPtr_self (hp : s.ptr p = some v) : s.setPtr p v = s := by
  cases p with
  | root i =>
    obtain ⟨hi, hv⟩ := List.getElem?_eq_some_iff.mp hp
    simp only [setPtr, ← hv, List.set_getElem_self]
  | member x j =>
    obtain ⟨o, ho, hj⟩ := ptr_member_eq_some.mp hp
    rw [setPtr, RefHeap.setMember_self ho hj]

theorem alive_setPtr : (s.setPtr p v).heap.Alive y ↔ s.heap.Alive y := by
  cases p with
  | root i => exact Iff.rfl
  | member x j => exact RefHeap.alive_setMember

theorem raws_setPtr : (s.setPtr p v).raws = s.raws := by
  cases p <;> rfl

theorem store_eq (hp : s.ptr p = some u) (v : Option ℕ) : s.store p v = some (s.setPtr p v) := by
  rw [store, hp]
  rfl

theorem owns_iff : s.Owns x y ↔ s.heap.Owns x y := by
  constructor
  · rintro ⟨j, hj⟩
    obtain ⟨o, ho, hmem⟩ := ptr_member_eq_some.mp hj
    exact ⟨o, ho, List.mem_of_getElem? hmem⟩
  · rintro ⟨o, ho, hmem⟩
    obtain ⟨j, hj⟩ := List.mem_iff_getElem?.mp hmem
    exact ⟨j, ptr_member_eq_some.mpr ⟨o, ho, hj⟩⟩

theorem held_iff : s.Held y ↔ y ∈ s.refs := by
  rw [Held, refs, List.mem_append, List.reduceOption_mem_iff]
  exact or_congr_right List.mem_iff_getElem?.symm

theorem anchored_iff : Anchoring.Anchored s.Owns s.Held y ↔
    Anchoring.Anchored s.heap.Owns (· ∈ s.refs) y := by
  have howns : s.Owns = s.heap.Owns := by
    ext x y
    exact owns_iff
  have hheld : s.Held = (· ∈ s.refs) := by
    ext y
    exact held_iff
  rw [howns, hheld]

/-! ### Values of pointers, and references at hand -/

/-- A pointer gets the reference `v` that is at hand, and leaves that to `u`. -/
theorem counted_setPtr (hs : s.heap.Counted (v.toList ++ s.refs)) (hp : s.ptr p = some u) :
    (s.setPtr p v).heap.Counted (u.toList ++ (s.setPtr p v).refs) := by
  cases p with
  | root i =>
    refine hs.perm (List.perm_iff_count.mpr fun b => ?_)
    have hset := RefHeap.count_set_add hp v b
    rw [← RefHeap.count_reduceOption, ← RefHeap.count_reduceOption] at hset
    simp only [setPtr, refs, List.count_append]
    omega
  | member x j =>
    obtain ⟨o, ho, hj⟩ := ptr_member_eq_some.mp hp
    exact hs.setMember ho hj

theorem Counted.alive_of_ptr (hs : s.Counted) (hp : s.ptr p = some (some b)) :
    s.heap.Alive b := by
  refine hs.alive_iff.mpr ?_
  cases p with
  | root i => exact .inl (held_iff.mp (.inr ⟨i, hp⟩))
  | member x j => exact .inr ⟨x, owns_iff.mp ⟨j, hp⟩⟩

theorem Counted.survives_of_null (hs : s.Counted) (hp : s.ptr p = some none) :
    s.heap.Alive y ↔ s.Survives p y := by
  rw [Survives, setPtr_self hp, anchored_iff]
  exact hs.alive_iff_anchored

/-! ### An object is released -/

/-- The pointer at `p` has given its reference up. -/
structure Dropped (s : RefState) (p : RefLoc) (t : RefState) : Prop where
  counted : t.Counted
  raws : t.raws = s.raws
  alive_iff : ∀ y, t.heap.Alive y ↔ s.Survives p y
  ptr_eq : ∀ q, s.PtrSurvives p q → t.ptr q = (s.setPtr p none).ptr q
  survives : ∀ q, (t.ptr q).isSome → s.PtrSurvives p q

theorem Dropped.of_null (hs : s.Counted) (hp : s.ptr p = some none) : Dropped s p s := by
  refine ⟨hs, rfl, fun y => hs.survives_of_null hp, fun q _ => by rw [setPtr_self hp],
    fun q hq => ?_⟩
  cases q with
  | root i => trivial
  | member x j =>
    obtain ⟨v, hv⟩ := Option.isSome_iff_exists.mp hq
    obtain ⟨o, ho, -⟩ := ptr_member_eq_some.mp hv
    exact (hs.survives_of_null hp).mp (.of_get ho)

/-- The pointers that stay have their values. -/
theorem ptr_of_leftOf {k : RefHeap} (hk : k.LeftOf s.heap)
    (hq : ∀ x j, q = .member x j → k.Alive x) : ptr { s with heap := k } q = s.ptr q := by
  cases q with
  | root i => rfl
  | member x j =>
    obtain ⟨o, ho⟩ := RefHeap.alive_iff.mp (hq x j rfl)
    obtain ⟨o', ho', hm⟩ := hk.2 x o ho
    simp only [ptr, ho, ho', Option.bind_some, hm]

/-- What a pointer had is released, if the pointer is null before. -/
theorem exists_dropped (hs : s.Counted) (hp : s.ptr p = some (some a)) :
    ∃ k, (s.setPtr p none).heap.release a = some k ∧
      Dropped s p { s.setPtr p none with heap := k } := by
  have hc : (s.setPtr p none).heap.Counted (a :: (s.setPtr p none).refs) :=
    counted_setPtr (v := none) (u := some a) hs hp
  obtain ⟨k, hk, hrel⟩ := hc.exists_release
  have halive (y : ℕ) : k.Alive y ↔ s.Survives p y :=
    (hrel.alive_iff hk hc).trans anchored_iff.symm
  refine ⟨k, hk, hrel.counted, raws_setPtr, halive, fun q hq => ?_, fun q hq => ?_⟩
  · refine ptr_of_leftOf (RefHeap.leftOf_of_releaseFrom hk) ?_
    rintro x j rfl
    exact (halive x).mpr hq
  · cases q with
    | root i => trivial
    | member x j =>
      obtain ⟨v, hv⟩ := Option.isSome_iff_exists.mp hq
      obtain ⟨o, ho, -⟩ := ptr_member_eq_some.mp hv
      exact (halive x).mp (.of_get ho)

/-- The same if the pointer keeps its value meanwhile: what must stay is the pointer. -/
theorem releaseObject_eq_some_iff (hs : s.Counted) (hp : s.ptr p = some (some a)) :
    ∃ r, Dropped s p r ∧
      ∀ t, s.releaseObject a = some t ↔ s.PtrSurvives p p ∧ r.setPtr p (some a) = t := by
  obtain ⟨k, hk, hr⟩ := exists_dropped hs hp
  refine ⟨_, hr, fun t => ?_⟩
  rw [releaseObject, Option.map_eq_some_iff]
  cases p with
  | root i =>
    have hself : (s.setPtr (.root i) none).setPtr (.root i) (some a) = s := by
      rw [setPtr_setPtr, setPtr_self hp]
    have hroots : (s.roots.set i none).set i (some a) = s.roots := congrArg RefState.roots hself
    change (∃ h, s.heap.release a = some h ∧ _) ↔
      True ∧ RefState.mk k ((s.roots.set i none).set i (some a)) s.raws = t
    rw [hroots, true_and]
    change s.heap.release a = some k at hk
    simp only [hk, Option.some.injEq, exists_eq_left']
  | member x j =>
    obtain ⟨o, ho, hj⟩ := ptr_member_eq_some.mp hp
    have hself : (s.heap.setMember x j none).setMember x j (some a) = s.heap := by
      rw [RefHeap.setMember_setMember, RefHeap.setMember_self ho hj]
    change (s.heap.setMember x j none).release a = some k at hk
    constructor
    · rintro ⟨h, hh, rfl⟩
      have hx := RefHeap.alive_owner hh ⟨o, ho, List.mem_of_getElem? hj⟩
      have hk' := RefHeap.releaseFrom_setMember hh hx j none
      rw [RefHeap.release, RefHeap.length_setMember, hk', Option.some.injEq] at hk
      obtain ⟨o', ho'⟩ := RefHeap.alive_iff.mp hx
      obtain ⟨o'', ho'', hm⟩ := (RefHeap.leftOf_of_releaseFrom hh).2 x o' ho'
      rw [ho, Option.some.injEq] at ho''
      subst ho''
      refine ⟨(hr.alive_iff x).mp ?_, ?_⟩
      · change k.Alive x
        rwa [← hk, RefHeap.alive_setMember]
      · change RefState.mk (k.setMember x j (some a)) s.roots s.raws = _
        rw [← hk, RefHeap.setMember_setMember, RefHeap.setMember_self ho' (hm ▸ hj)]
    · rintro ⟨hsurv, rfl⟩
      have hh := RefHeap.releaseFrom_setMember hk ((hr.alive_iff x).mpr hsurv) j (some a)
      rw [hself, RefHeap.length_setMember] at hh
      exact ⟨_, hh, rfl⟩

/-- **Releasing a pointer.** -/
theorem release_eq_some_iff (hs : s.Counted) (hp : (s.ptr p).isSome) :
    ∃ r, Dropped s p r ∧ ∀ t, s.release p = some t ↔ s.PtrSurvives p p ∧ r = t := by
  obtain ⟨m, hm⟩ := Option.isSome_iff_exists.mp hp
  cases m with
  | none =>
    have hr := Dropped.of_null hs hm
    refine ⟨s, hr, fun t => ?_⟩
    rw [release, hm]
    change some s = some t ↔ _
    rw [Option.some.injEq, and_iff_right (hr.survives p hp)]
  | some a =>
    obtain ⟨r, hr, hiff⟩ := releaseObject_eq_some_iff hs hm
    refine ⟨r, hr, fun t => ?_⟩
    rw [release, hm]
    change (s.releaseObject a).bind (fun t => t.store p none) = some t ↔ _
    rw [Option.bind_eq_some_iff]
    have hnull (h : s.PtrSurvives p p) : r.ptr p = some none :=
      (hr.ptr_eq p h).trans (ptr_setPtr_self hm none)
    constructor
    · rintro ⟨i, hi, ht⟩
      obtain ⟨hsurv, rfl⟩ := (hiff i).mp hi
      rw [store_eq (ptr_setPtr_self (hnull hsurv) _), setPtr_setPtr, setPtr_self (hnull hsurv),
        Option.some.injEq] at ht
      exact ⟨hsurv, ht⟩
    · rintro ⟨hsurv, rfl⟩
      refine ⟨_, (hiff _).mpr ⟨hsurv, rfl⟩, ?_⟩
      rw [store_eq (ptr_setPtr_self (hnull hsurv) _), setPtr_setPtr, setPtr_self (hnull hsurv)]

/-! ### A reference is taken -/

theorem acquire_setPtr (s : RefState) (p : RefLoc) (u v : Option ℕ) :
    (s.setPtr p u).acquire v = (s.acquire v).map fun t => t.setPtr p u := by
  cases v with
  | none => rfl
  | some b =>
    change (s.setPtr p u).addRef b = (s.addRef b).map _
    cases p with
    | root i =>
      simp only [addRef, Option.map_map]
      rfl
    | member x j =>
      simp only [addRef, setPtr, RefHeap.addRef_setMember, Option.map_map]
      rfl

theorem alive_of_acquire (ht : s.acquire v = some t) : ∀ b ∈ v, s.heap.Alive b := by
  rintro b rfl
  obtain ⟨h, hh, -⟩ := Option.map_eq_some_iff.mp ht
  obtain ⟨o, ho, -⟩ := Option.bind_eq_some_iff.mp hh
  exact .of_get ho

theorem exists_acquire (hs : s.Counted) (hv : ∀ b ∈ v, s.heap.Alive b) :
    ∃ h, s.acquire v = some { s with heap := h } ∧ h.Counted (v.toList ++ s.refs) ∧
      (∀ y, h.Alive y ↔ s.heap.Alive y) ∧ ∀ q, ptr { s with heap := h } q = s.ptr q := by
  cases v with
  | none => exact ⟨s.heap, rfl, hs, fun _ => Iff.rfl, fun _ => rfl⟩
  | some b =>
    obtain ⟨h, hh, hc, hleft, halive⟩ := RefHeap.Counted.addRef hs (hv b rfl)
    refine ⟨h, by rw [acquire, Option.elim_some, addRef, hh]; rfl, hc, halive, fun q => ?_⟩
    cases q with
    | root i => rfl
    | member x j =>
      by_cases hx : h.Alive x
      · exact ptr_of_leftOf hleft fun _ _ heq => RefLoc.member.inj heq |>.1 ▸ hx
      · have hx' := RefHeap.not_alive_iff.mp ((halive x).not.mp hx)
        simp only [ptr, hx', RefHeap.not_alive_iff.mp hx]

/-- A null pointer gets a value. -/
structure Put (s : RefState) (p : RefLoc) (v : Option ℕ) (t : RefState) : Prop where
  counted : t.Counted
  ptr_self : t.ptr p = some v
  ptr_of_ne : ∀ q, q ≠ p → t.ptr q = s.ptr q

/-- The two orders in which assignments take the reference and write the pointer. -/
theorem store_acquire_eq_some_iff (hs : s.Counted) (hp : s.ptr p = some none) :
    ∃ r, ((∀ b ∈ v, s.heap.Alive b) → Put s p v r) ∧
      (∀ t, ((s.store p v).bind fun t => t.acquire v) = some t ↔
        (∀ b ∈ v, s.heap.Alive b) ∧ r = t) ∧
      ∀ t, ((s.acquire v).bind fun t => t.store p v) = some t ↔
        (∀ b ∈ v, s.heap.Alive b) ∧ r = t := by
  by_cases hv : ∀ b ∈ v, s.heap.Alive b
  · obtain ⟨h, hh, hc, -, hptr⟩ := exists_acquire hs hv
    have hp' : ptr { s with heap := h } p = some none := (hptr p).trans hp
    refine ⟨setPtr { s with heap := h } p v, fun _ => ⟨?_, ptr_setPtr_self hp' v, ?_⟩, fun t => ?_,
      fun t => ?_⟩
    · exact counted_setPtr (s := { s with heap := h }) hc hp'
    · exact fun q hq => (ptr_setPtr_of_ne hq v).trans (hptr q)
    · rw [store_eq hp, Option.bind_some, acquire_setPtr, hh, Option.map_some,
        Option.some.injEq, and_iff_right hv]
    · rw [hh, Option.bind_some, store_eq hp', Option.some.injEq, and_iff_right hv]
  · refine ⟨s, fun h => absurd h hv, fun t => ⟨fun h => absurd ?_ hv, fun h => absurd h.1 hv⟩,
      fun t => ⟨fun h => absurd ?_ hv, fun h => absurd h.1 hv⟩⟩
    · rw [store_eq hp, Option.bind_some, acquire_setPtr] at h
      obtain ⟨r, hr, -⟩ := Option.map_eq_some_iff.mp h
      exact alive_of_acquire hr
    · obtain ⟨r, hr, -⟩ := Option.bind_eq_some_iff.mp h
      exact alive_of_acquire hr

/-- Something else has a reference to what the pointer has. -/
theorem survives_of_shared (hs : s.Counted) (hpq : p ≠ q) (hp : s.ptr p = some v)
    (hq : s.ptr q = some v) (hy : s.heap.Alive y) : s.Survives q y := by
  refine ⟨{z | s.heap.Alive z}, hy, fun z hz => ?_⟩
  have hplace (l : RefLoc) (hlq : l ≠ q) (hl : s.ptr l = some (some z)) :
      (s.setPtr q none).Held z ∨ ∃ x ∈ {z | s.heap.Alive z}, (s.setPtr q none).Owns x z := by
    rw [← ptr_setPtr_of_ne hlq none] at hl
    cases l with
    | root i => exact .inl (.inr ⟨i, hl⟩)
    | member x j =>
      obtain ⟨o, ho, -⟩ := ptr_member_eq_some.mp hl
      exact .inr ⟨x, alive_setPtr.mp (.of_get ho), j, hl⟩
  have hother (l : RefLoc) (hl : s.ptr l = some (some z)) :
      (s.setPtr q none).Held z ∨ ∃ x ∈ {z | s.heap.Alive z}, (s.setPtr q none).Owns x z := by
    rcases eq_or_ne l q with rfl | hlq
    · exact hplace p hpq (hp.trans (hq.symm.trans hl))
    · exact hplace l hlq hl
  rcases hs.alive_iff.mp hz with hmem | ⟨x, hx⟩
  · rcases held_iff.mpr hmem with hraw | ⟨i, hi⟩
    · exact .inl (.inl (raws_setPtr.symm ▸ hraw))
    · exact hother _ hi
  · obtain ⟨j, hj⟩ := owns_iff.mpr hx
    exact hother _ hj

theorem ptrSurvives_of_shared (hs : s.Counted) (hpq : p ≠ q) (hp : s.ptr p = some v)
    (hq : s.ptr q = some v) : s.PtrSurvives q q := by
  cases q with
  | root i => trivial
  | member x j =>
    obtain ⟨o, ho, -⟩ := ptr_member_eq_some.mp hq
    exact survives_of_shared hs hpq hp hq (.of_get ho)

/-! ### The operations -/

/-- An operation comes to its end precisely if `ok`, and then objects count their references. -/
def Meets (result : Option RefState) (ok : Prop) : Prop :=
  ∃ r : RefState, (ok → r.Counted) ∧ ∀ t, result = some t ↔ ok ∧ r = t

variable {result : Option RefState} {ok ok' : Prop}

theorem Meets.of_some (hs : s.Counted) (hok : ok) : Meets (some s) ok :=
  ⟨s, fun _ => hs, fun t => by rw [Option.some.injEq, and_iff_right hok]⟩

theorem Meets.congr (h : Meets result ok) (hok : ok ↔ ok') : Meets result ok' := by
  obtain ⟨r, hr, hiff⟩ := h
  exact ⟨r, fun h => hr (hok.mpr h), fun t => (hiff t).trans (and_congr_left' hok)⟩

theorem meets_release_bind (hs : s.Counted) (hp : (s.ptr p).isSome)
    {f : RefState → Option RefState}
    (hf : ∀ r, Dropped s p r → r.ptr p = some none → Meets (f r) ok) :
    Meets ((s.release p).bind f) (s.PtrSurvives p p ∧ ok) := by
  obtain ⟨r, hr, hiff⟩ := release_eq_some_iff hs hp
  by_cases hsurv : s.PtrSurvives p p
  · obtain ⟨m, hm⟩ := Option.isSome_iff_exists.mp hp
    obtain ⟨r', hc, hiff'⟩ := hf r hr ((hr.ptr_eq p hsurv).trans (ptr_setPtr_self hm none))
    refine ⟨r', fun h => hc h.2, fun t => ?_⟩
    rw [(hiff r).mpr ⟨hsurv, rfl⟩, Option.bind_some, hiff', and_iff_right hsurv]
  · refine ⟨r, fun h => absurd h.1 hsurv, fun t => ⟨fun h => ?_, fun h => absurd h.1.1 hsurv⟩⟩
    obtain ⟨i, hi, -⟩ := Option.bind_eq_some_iff.mp h
    exact absurd ((hiff i).mp hi).1 hsurv

theorem meets_release (hs : s.Counted) (hp : (s.ptr p).isSome) :
    Meets (s.release p) (s.PtrSurvives p p) := by
  have := meets_release_bind (f := some) hs hp fun r hr _ => Meets.of_some hr.counted trivial
  rw [Option.bind_fun_some] at this
  exact this.congr (and_iff_left trivial)

theorem Put.meets (hs : s.Counted) (hp : s.ptr p = some none) :
    Meets ((s.store p v).bind fun t => t.acquire v) (∀ b ∈ v, s.heap.Alive b) ∧
      Meets ((s.acquire v).bind fun t => t.store p v) (∀ b ∈ v, s.heap.Alive b) := by
  obtain ⟨r, hput, hstore, hacquire⟩ := store_acquire_eq_some_iff (v := v) hs hp
  exact ⟨⟨r, fun h => (hput h).counted, hstore⟩, ⟨r, fun h => (hput h).counted, hacquire⟩⟩

theorem meets_assignRaw (hs : s.Counted) (hp : (s.ptr p).isSome) (other : Option ℕ) :
    Meets (s.assignRaw p other) (s.Ok (.assignRaw p other)) := by
  obtain ⟨m, hm⟩ := Option.isSome_iff_exists.mp hp
  rw [assignRaw, hm]
  change Meets (if m ≠ none ∧ other ≠ none ∧ m = other then some s else
    (s.release p).bind _) _
  split_ifs with hsame
  · exact .of_some hs (.inl (hsame.2.2 ▸ hm))
  · have hok : s.PtrSurvives p p ∧ (∀ b ∈ other, s.Survives p b) ↔
        s.Ok (.assignRaw p other) := by
      refine ⟨.inr, fun h => h.elim (fun heq => ?_) id⟩
      rw [hm, Option.some.injEq] at heq
      subst heq
      have hnull : m = none := by
        by_contra hne
        exact hsame ⟨hne, hne, rfl⟩
      subst hnull
      exact ⟨(Dropped.of_null hs hm).survives p hp, fun b hb => nomatch hb⟩
    refine (meets_release_bind hs hp fun r hr hnull => ?_).congr hok
    cases other with
    | none => exact .of_some hr.counted fun b hb => nomatch hb
    | some b =>
      refine (Put.meets (v := some b) hr.counted hnull).2.congr ?_
      exact forall₂_congr fun c _ => hr.alive_iff c

theorem meets_assignCopy (hs : s.Counted) (hp : (s.ptr p).isSome) (hq : (s.ptr q).isSome) :
    Meets (s.assignCopy p q) (s.Ok (.assignCopy p q)) := by
  obtain ⟨m, hm⟩ := Option.isSome_iff_exists.mp hp
  obtain ⟨other, hother⟩ := Option.isSome_iff_exists.mp hq
  rw [assignCopy, hm, hother]
  change Meets (if m = other then some s else (s.release p).bind _) _
  split_ifs with hsame
  · exact .of_some hs (.inl (by rw [hm, hother, hsame]))
  · have hok : s.PtrSurvives p p ∧ (∀ b ∈ other, s.Survives p b) ↔ s.Ok (.assignCopy p q) := by
      rw [Ok, hm, hother, Option.some.injEq, or_iff_right hsame]
      exact and_congr_right fun _ => forall_congr' fun b => by rw [Option.some.injEq]; rfl
    refine (meets_release_bind hs hp fun r hr hnull => ?_).congr hok
    refine (Put.meets hr.counted hnull).1.congr ?_
    exact forall₂_congr fun c _ => hr.alive_iff c

theorem meets_assignMove (hs : s.Counted) (hp : (s.ptr p).isSome) (hq : (s.ptr q).isSome) :
    Meets (s.assignMove p q) (s.Ok (.assignMove p q)) := by
  refine meets_release_bind hs hp fun r hr hnull => ?_
  by_cases hsurv : s.PtrSurvives p q
  · obtain ⟨other, hother⟩ : ∃ v, r.ptr q = some v := by
      rcases eq_or_ne q p with rfl | hqp
      · exact ⟨none, hnull⟩
      · obtain ⟨v, hv⟩ := Option.isSome_iff_exists.mp hq
        exact ⟨v, (hr.ptr_eq q hsurv).trans ((ptr_setPtr_of_ne hqp none).trans hv)⟩
    have halive : ∀ b ∈ other, r.heap.Alive b := by
      rintro b rfl
      exact hr.counted.alive_of_ptr hother
    obtain ⟨w, hput, hstore, -⟩ := store_acquire_eq_some_iff (v := other) hr.counted hnull
    have hw := hput halive
    have hwq : w.ptr q = some other := by
      rcases eq_or_ne q p with rfl | hqp
      · exact hw.ptr_self
      · rw [hw.ptr_of_ne q hqp, hother]
    have hstays : w.PtrSurvives q q := by
      rcases eq_or_ne p q with rfl | hpq
      · rw [hnull, Option.some.injEq] at hother
        subst hother
        exact (Dropped.of_null hw.counted hwq).survives _ (hwq ▸ rfl)
      · exact ptrSurvives_of_shared hw.counted hpq hw.ptr_self hwq
    have := meets_release hw.counted (hwq ▸ rfl : (w.ptr q).isSome)
    rw [hother]
    change Meets ((r.store p other).bind fun t => (t.acquire other).bind fun t => t.release q) _
    rw [← Option.bind_assoc, (hstore w).mpr ⟨halive, rfl⟩, Option.bind_some]
    exact this.congr (iff_of_true hstays hsurv)
  · refine ⟨r, fun h => absurd h hsurv, fun t => ⟨fun h => ?_, fun h => absurd h.1 hsurv⟩⟩
    obtain ⟨v, hv, -⟩ := Option.bind_eq_some_iff.mp h
    exact absurd (hr.survives q (hv ▸ rfl)) hsurv

theorem meets_detach (hs : s.Counted) (hp : (s.ptr p).isSome) :
    Meets (s.detach p) True := by
  obtain ⟨m, hm⟩ := Option.isSome_iff_exists.mp hp
  rw [detach, hm]
  change Meets ((s.store p none).bind _) _
  rw [store_eq hm]
  refine .of_some (s := { s.setPtr p none with raws := m.toList ++ _ }) ?_ trivial
  have := counted_setPtr (v := none) hs hm
  rw [refs] at this
  rw [Counted, refs, List.append_assoc]
  exact this

/-- A pointer takes over a reference of the caller. -/
theorem counted_takeOver (hs : s.Counted) (hp : s.ptr p = some none) (hv : ∀ b ∈ v, b ∈ s.raws) :
    Counted { s.setPtr p v with raws := s.raws.diff v.toList } := by
  have hperm : (v.toList ++ s.raws.diff v.toList).Perm s.raws := by
    cases v with
    | none => exact .refl _
    | some b =>
      change (b :: s.raws.diff [b]).Perm s.raws
      rw [List.diff_cons, List.diff_nil]
      exact (List.perm_cons_erase (hv b rfl)).symm
  have hc : RefHeap.Counted { s with raws := s.raws.diff v.toList }.heap
      (v.toList ++ refs { s with raws := s.raws.diff v.toList }) := by
    refine RefHeap.Counted.perm hs ?_
    rw [refs, refs, ← List.append_assoc]
    exact (hperm.append_right _).symm
  have := counted_setPtr (s := { s with raws := s.raws.diff v.toList }) hc hp
  cases p <;> exact this

theorem meets_attach (hs : s.Counted) (hp : (s.ptr p).isSome) (other : Option ℕ)
    (hother : ∀ b ∈ other, b ∈ s.raws) : Meets (s.attach p other) (s.PtrSurvives p p) := by
  obtain ⟨m, hm⟩ := Option.isSome_iff_exists.mp hp
  rw [attach, hm]
  cases m with
  | none =>
    have hsurv := (Dropped.of_null hs hm).survives p hp
    change Meets ((s.store p other).bind _) _
    rw [store_eq hm]
    refine .of_some (s := { s.setPtr p other with raws := _ }) ?_ hsurv
    rw [raws_setPtr]
    exact counted_takeOver hs hm hother
  | some a =>
    obtain ⟨r, hr, hiff⟩ := releaseObject_eq_some_iff hs hm
    change Meets (((s.releaseObject a).bind _).bind _) _
    by_cases hsurv : s.PtrSurvives p p
    · have hnull := (hr.ptr_eq p hsurv).trans (ptr_setPtr_self hm none)
      have hraws : ∀ b ∈ other, b ∈ r.raws := fun b hb => hr.raws ▸ hother b hb
      have hassert : ¬(¬(r.setPtr p (some a)).heap.Alive a ∧ some a = other) := by
        rintro ⟨hdead, rfl⟩
        refine hdead (alive_setPtr.mpr (hr.counted.alive_iff.mpr (.inl (held_iff.mp (.inl ?_)))))
        exact hraws a rfl
      rw [(hiff _).mpr ⟨hsurv, rfl⟩, Option.bind_some, if_neg hassert]
      change Meets (((r.setPtr p (some a)).store p other).bind _) _
      rw [store_eq (ptr_setPtr_self hnull _), setPtr_setPtr]
      refine .of_some (s := { r.setPtr p other with raws := _ }) ?_ hsurv
      rw [raws_setPtr]
      exact counted_takeOver hr.counted hnull hraws
    · refine ⟨r, fun h => absurd h hsurv, fun t => ⟨fun h => ?_, fun h => absurd h.1 hsurv⟩⟩
      obtain ⟨i, hi, -⟩ := Option.bind_eq_some_iff.mp h
      obtain ⟨i', hi', -⟩ := Option.bind_eq_some_iff.mp hi
      exact absurd ((hiff i').mp hi').1 hsurv

/-- A pointer is constructed. -/
theorem exists_construct (hs : s.Counted) (hv : ∀ b ∈ v, s.heap.Alive b) :
    ∃ r, s.construct v = some r ∧ r.Counted ∧ r.ptr (.root s.roots.length) = some v ∧
      ∀ q, (s.ptr q).isSome → r.ptr q = s.ptr q := by
  obtain ⟨h, hh, hc, -, hptr⟩ := exists_acquire hs hv
  refine ⟨{ heap := h, roots := s.roots ++ [v], raws := s.raws }, by rw [construct, hh]; rfl,
    ?_, ?_, fun q hq => ?_⟩
  · refine hc.perm (List.perm_iff_count.mpr fun b => ?_)
    simp only [refs, List.reduceOption_append, List.reduceOption_singleton, List.count_append]
    omega
  · exact List.getElem?_concat_length
  · rw [← hptr q]
    cases q with
    | root i =>
      obtain ⟨w, hw⟩ := Option.isSome_iff_exists.mp hq
      exact List.getElem?_append_left (List.getElem?_eq_some_iff.mp hw).1
    | member x j => rfl

theorem meets_construct (hs : s.Counted) (hv : ∀ b ∈ v, s.heap.Alive b) :
    Meets (s.construct v) True := by
  obtain ⟨r, hr, hc, -⟩ := exists_construct hs hv
  exact hr ▸ .of_some hc trivial

theorem meets_constructCopy (hs : s.Counted) (hq : (s.ptr q).isSome) :
    Meets (s.constructCopy q) True := by
  obtain ⟨v, hv⟩ := Option.isSome_iff_exists.mp hq
  rw [constructCopy, hv]
  refine meets_construct hs ?_
  rintro b rfl
  exact hs.alive_of_ptr hv

theorem meets_constructMove (hs : s.Counted) (hq : (s.ptr q).isSome) :
    Meets (s.constructMove q) True := by
  obtain ⟨v, hv⟩ := Option.isSome_iff_exists.mp hq
  have halive : ∀ b ∈ v, s.heap.Alive b := by
    rintro b rfl
    exact hs.alive_of_ptr hv
  obtain ⟨r, hr, hc, hself, hptr⟩ := exists_construct hs halive
  have hrq : r.ptr q = some v := (hptr q hq).trans hv
  have hne : .root s.roots.length ≠ q := by
    rintro rfl
    rw [ptr, List.getElem?_eq_none le_rfl] at hv
    cases hv
  have := meets_release hc (hrq ▸ rfl : (r.ptr q).isSome)
  rw [constructMove, hv]
  change Meets ((s.construct v).bind _) _
  rw [hr, Option.bind_some]
  exact this.congr (iff_of_true (ptrSurvives_of_shared hc hne hself hrq) trivial)

theorem meets_releaseRaw (hs : s.Counted) (ha : a ∈ s.raws) :
    Meets (s.exec (.releaseRaw a)) True := by
  have hc : s.heap.Counted (a :: (s.raws.erase a ++ s.roots.reduceOption)) :=
    RefHeap.Counted.perm hs ((List.perm_cons_erase ha).append_right _)
  obtain ⟨k, hk, hrel⟩ := hc.exists_release
  rw [exec, releaseObject, hk]
  exact .of_some hrel.counted trivial

theorem meets_addRef (hs : s.Counted) (ha : s.heap.Alive a) :
    Meets (s.exec (.addRef a)) True := by
  obtain ⟨h, hh, hc, -⟩ := exists_acquire (v := some a) hs fun b hb => Option.some.inj hb ▸ ha
  change s.addRef a = _ at hh
  rw [exec, hh]
  exact .of_some hc trivial

theorem counted_new (hs : s.Counted) (members : ℕ) : (s.new members).Counted := by
  have hrefs (b : ℕ) : (s.new members).heap.memberRefs b = s.heap.memberRefs b := by
    have hnull : (List.replicate members none).count (some b) = 0 :=
      List.count_eq_zero.mpr fun h => Option.some_ne_none b (List.eq_of_mem_replicate h)
    simp [new, RefHeap.memberRefs, hnull]
  have hcount (b : ℕ) : (s.new members).refs.count b =
      s.refs.count b + if s.heap.length = b then 1 else 0 := by
    simp only [new, refs, List.cons_append, List.count_cons, beq_iff_eq]
  intro b
  rw [hcount, hrefs]
  have hb := hs b
  rcases lt_trichotomy b s.heap.length with hlt | rfl | hgt
  · have hget : (s.new members).heap.get b = s.heap.get b := by
      rw [RefHeap.get, RefHeap.get, new, List.getElem?_append_left hlt]
    rw [hget, if_neg hlt.ne']
    exact hb
  · have hnone : s.heap.get s.heap.length = none := by
      rw [RefHeap.get, List.getElem?_eq_none le_rfl]
      rfl
    have hget : (s.new members).heap.get s.heap.length =
        some ⟨1, List.replicate members none⟩ :=
      RefHeap.get_eq_some.mpr List.getElem?_concat_length
    rw [hnone, Option.elim_none] at hb
    rw [hget, if_pos rfl]
    exact ⟨by dsimp only; omega, by omega⟩
  · have hget : (s.new members).heap.get b = s.heap.get b := by
      rw [RefHeap.get, RefHeap.get, new, List.getElem?_eq_none hgt.le,
        List.getElem?_eq_none (List.length_append.trans_le hgt)]
    rw [hget, if_neg hgt.ne]
    exact hb

/-- One lemma for all operations. -/
theorem meets_exec (hs : s.Counted) {op : RefOp} (hop : s.Enabled op) :
    Meets (s.exec op) (s.Ok op) := by
  cases op with
  | new members => exact .of_some (counted_new hs members) trivial
  | addRef a => exact meets_addRef hs hop
  | releaseRaw a => exact meets_releaseRaw hs hop
  | construct other => exact meets_construct hs hop
  | constructCopy q => exact meets_constructCopy hs hop
  | constructMove q => exact meets_constructMove hs hop
  | assignRaw p other => exact meets_assignRaw hs hop.1 other
  | assignCopy p q => exact meets_assignCopy hs hop.1 hop.2
  | assignMove p q => exact meets_assignMove hs hop.1 hop.2
  | attach p other => exact meets_attach hs hop.1 other hop.2
  | detach p => exact meets_detach hs hop
  | release p => exact meets_release hs hop

end RefState

/-! ### Runs -/

namespace RefMachine

/-- The condition under which a step touches no deleted object. -/
def Ok : RefMachine → RefOp → Prop
  | .running s, op => s.Ok op
  | .faulted, _ => True

/-- The invariant. -/
def Counted : RefMachine → Prop
  | .running s => s.Counted
  | .faulted => True

variable {m m' : RefMachine} {op : RefOp}

theorem counted_start : start.Counted := fun a => by
  change (Option.join ([] : RefHeap)[a]?).elim _ _
  rw [List.getElem?_nil]
  rfl

theorem step_running {s : RefState} (h : step (.running s) op = some m') :
    s.Enabled op ∧ (s.exec op).elim .faulted .running = m' := by
  rw [step] at h
  split_ifs at h with hop
  exact ⟨hop, Option.some.inj h⟩

theorem Counted.step (hm : m.Counted) (h : step m op = some m') : m'.Counted := by
  cases m with
  | faulted => cases h
  | running s =>
    obtain ⟨hop, rfl⟩ := step_running h
    obtain ⟨r, hr, hiff⟩ := RefState.meets_exec hm hop
    cases he : s.exec op with
    | none => trivial
    | some t =>
      obtain ⟨hok, rfl⟩ := (hiff t).mp he
      exact hr hok

theorem ne_faulted_iff_ok (hm : m.Counted) (h : step m op = some m') :
    m' ≠ .faulted ↔ m.Ok op := by
  cases m with
  | faulted => cases h
  | running s =>
    obtain ⟨hop, rfl⟩ := step_running h
    obtain ⟨r, -, hiff⟩ := RefState.meets_exec hm hop
    constructor
    · intro hne
      cases he : s.exec op with
      | none => exact absurd (by rw [he]; rfl) hne
      | some t => exact ((hiff t).mp he).1
    · intro hok
      rw [(hiff r).mpr ⟨hok, rfl⟩]
      rintro ⟨⟩

/-- **A run touches no deleted object** precisely if, in each of its assignments and releases of
pointers, what is used afterwards survives the release of the old object. -/
theorem always_running_iff (l : List RefOp) :
    Always step (· ≠ .faulted) start l ↔ Guarded step Ok start l :=
  always_iff_guarded l (fun _ _ _ hm => hm.step)
    (fun _ _ _ hm _ h => ne_faulted_iff_ok hm h) counted_start (by rintro ⟨⟩)

/-- **The states of a run that has touched no deleted object**: an object's count is the number
of pointers and raw references to it, every pointer points to an object, and the objects that
are there are those that can be reached from outside or from a cycle of members. -/
theorem counted_of_run {l : List RefOp} {s : RefState}
    (h : run step start l = some (.running s)) :
    (∀ a o, s.heap.get a = some o →
      o.refCount = s.raws.count a + s.roots.count (some a) + s.heap.memberRefs a) ∧
    (∀ p b, s.ptr p = some (some b) → s.heap.Alive b) ∧
    ∀ y, s.heap.Alive y ↔
      ∃ e, (s.Held e ∨ TransGen s.Owns e e) ∧ ReflTransGen s.Owns e y := by
  have hs : (RefMachine.running s).Counted :=
    run_invariant h (fun _ _ _ hm => hm.step) counted_start
  change s.Counted at hs
  have hfin : {x | ∃ z, s.Owns x z}.Finite := by
    refine (Set.finite_lt_nat s.heap.length).subset ?_
    rintro x ⟨z, j, hj⟩
    obtain ⟨o, ho, -⟩ := RefState.ptr_member_eq_some.mp hj
    exact RefHeap.lt_of_get ho
  refine ⟨fun a o ho => ?_, fun p b => hs.alive_of_ptr, fun y => ?_⟩
  · rw [(RefHeap.Counted.of_get hs ho).1, RefState.refs, List.count_append,
      RefHeap.count_reduceOption, Nat.cast_add]
  · exact hs.alive_iff_anchored.trans
      (RefState.anchored_iff.symm.trans (Anchoring.anchored_iff hfin))

/-- Two objects that own each other stay when the last pointer outside goes. -/
theorem counted_of_run_cycle :
    ∃ s, run step start [.new 1, .construct none, .attach (.root 0) (some 0),
      .new 1, .attach (.member 0 0) (some 1), .assignCopy (.member 1 0) (.root 0),
      .release (.root 0)] = some (.running s) ∧ s.heap.Alive 0 ∧ s.heap.Alive 1 ∧
      (s.heap.Alive 1 ↔
        ∃ e, (s.Held e ∨ TransGen s.Owns e e) ∧ ReflTransGen s.Owns e 1) :=
  ⟨_, rfl, rfl, rfl, (counted_of_run (l := [.new 1, .construct none,
    .attach (.root 0) (some 0), .new 1, .attach (.member 0 0) (some 1),
    .assignCopy (.member 1 0) (.root 0), .release (.root 0)]) rfl).2.2 1⟩

/-- `p = p->next`, with the last references to both objects. -/
example : run step start [.new 1, .construct none, .attach (.root 0) (some 0), .new 0,
    .attach (.member 0 0) (some 1), .assignCopy (.root 0) (.member 0 0)] = some .faulted := rfl

end RefMachine

end UtilityFramework
