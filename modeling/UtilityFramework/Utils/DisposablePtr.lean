import Mathlib.Data.List.Nodup
import Mathlib.Logic.Function.Basic
import UtilityFramework.Lib.Transition

/-!
# Weak pointers

`utils::disposable_ptr` points to an object without a reference of its own. It registers a
callback with the object, which calls it when it is destroyed, and the pointer forgets it;
`lock` gives a reference to an object that is still there.

Between the release of the last reference of an object and the call of the callback, another
thread may call `lock`. It counts the new reference and takes the object to be gone if this is
the only one; but it leaves the reference counted, so that a second pointer that is locked in
the meantime takes the object to be there. And a callback that has been copied by the destructor
is called whatever becomes of its pointer: the pointer may be gone by then, or point to another
object, which it forgets. `always_sound_iff` says that these are the only ways in which weak
pointers fail, in any interleaving, and `lock_of_run` what `lock` gives in all other runs.

A copy of a pointer is made of the steps that are modelled: the other one is locked, the object is
assigned and its reference released; a move resets the other one before the release. An assignment
from another pointer begins with a reset, and holds the mutex of the pointer that it assigns until
the reference is released, so that nothing else is done with this pointer in between. If that was
the last reference, the callback locks the same mutex again and never returns; and two pointers
that are assigned to each other may wait for each other. Such an assignment never ends, and is not
modelled.
-/

namespace UtilityFramework

open Transition

/-! ### Objects and pointers -/

/-- How far the destruction of an object is. While its destructor calls the callbacks, those that
it has not called yet are `pending`. -/
inductive Life
  | unmade
  | alive
  | dying
  | notifying (pending : List ℕ)
  | freed
  deriving DecidableEq

/-- The next callback, and those that are left. -/
def Life.next : Life → Option (ℕ × List ℕ)
  | .notifying (w :: pending) => some (w, pending)
  | _ => none

/-- `disposable_base`, with the pointers whose callbacks are registered. The count of references is
an `int`; they are taken to be less than `2 ^ 31`. -/
structure DisposableBase where
  refCount : ℕ
  callbacks : List ℕ
  life : Life

/-- `disposable_ptr`, with the object that it has last been assigned, or what has become of it. -/
inductive DisposablePtr
  | unmade
  | present (ptr assigned : Option ℕ)
  | gone
  deriving DecidableEq

/-- Objects and weak pointers by their addresses, and the references that clients have. -/
structure WeakState where
  objects : ℕ → DisposableBase
  weaks : ℕ → DisposablePtr
  strong : List ℕ

/-- What goes wrong: a reference to an object whose destructor runs is given out, an object is
touched that is gone, or a pointer. -/
inductive WeakFault
  | dangling
  | freed
  | gone
  deriving DecidableEq

/-- What clients and destructors do. -/
inductive WeakOp
  | new (o : ℕ)
  | addRef (o : ℕ)
  | release (o : ℕ)
  | make (w : ℕ) (p : Option ℕ)
  | assign (w : ℕ) (p : Option ℕ)
  | reset (w : ℕ)
  | destroy (w : ℕ)
  | lock (w : ℕ)
  | dispose (o : ℕ)
  | notify (o : ℕ)
  | free (o : ℕ)
  deriving DecidableEq

namespace WeakState

/-- `m_ptr`. -/
def ptr (s : WeakState) (w : ℕ) : Option ℕ :=
  match s.weaks w with
  | .present p _ => p
  | _ => none

/-- An object changes. -/
def modify (s : WeakState) (o : ℕ) (f : DisposableBase → DisposableBase) : WeakState :=
  { s with objects := Function.update s.objects o (f (s.objects o)) }

/-- A pointer changes. -/
def setWeak (s : WeakState) (w : ℕ) (p : DisposablePtr) : WeakState :=
  { s with weaks := Function.update s.weaks w p }

/-- A client has a reference. -/
def hold (s : WeakState) (o : ℕ) : WeakState := { s with strong := o :: s.strong }

/-- A client has given a reference up. -/
def drop (s : WeakState) (o : ℕ) : WeakState := { s with strong := s.strong.erase o }

/-- An object that is gone must not be touched. -/
def touch (s : WeakState) (o : ℕ) : Except WeakFault WeakState :=
  if (s.objects o).life = .freed then .error .freed else .ok s

/-- `unregister_disposable_callback`. -/
def unregister (s : WeakState) (o w : ℕ) : WeakState :=
  s.modify o fun b => { b with callbacks := b.callbacks.erase w }

/-- `register_disposable_callback`. -/
def register (s : WeakState) (o w : ℕ) : WeakState :=
  s.modify o fun b =>
    { b with callbacks := if w ∈ b.callbacks then b.callbacks else b.callbacks ++ [w] }

/-- `clear`. -/
def clear (s : WeakState) (w : ℕ) : Except WeakFault WeakState :=
  match s.weaks w with
  | .present (some o) assigned =>
    (s.touch o).map fun s => (s.unregister o w).setWeak w (.present none assigned)
  | _ => .ok s

/-- A pointer that points to nothing gets an object. -/
def setPtr (s : WeakState) (w : ℕ) (p : Option ℕ) : Except WeakFault WeakState :=
  match p with
  | none => .ok (s.setWeak w (.present none none))
  | some o => (s.touch o).map fun s => (s.setWeak w (.present p p)).register o w

/-- `lock`, with the pointer that it gives. -/
def lock (s : WeakState) (w : ℕ) : Except WeakFault (Option ℕ × WeakState) :=
  match s.ptr w with
  | none => .ok (none, s)
  | some o =>
    (s.touch o).bind fun s =>
      let s := s.modify o fun b => { b with refCount := b.refCount + 1 }
      if (s.objects o).refCount < 2 then (s.clear w).map fun s => (none, s)
      else if (s.objects o).life = .alive then .ok (some o, s.hold o)
      else .error .dangling

/-- `release`: the destructor begins when the last reference has gone. -/
def release (s : WeakState) (o : ℕ) : WeakState :=
  let s := (s.modify o fun b => { b with refCount := b.refCount - 1 }).drop o
  if (s.objects o).refCount = 0 then s.modify o fun b => { b with life := .dying } else s

/-- The destructor calls a callback, which resets its pointer. -/
def notify (s : WeakState) (o : ℕ) : Except WeakFault WeakState :=
  match (s.objects o).life.next with
  | none => .ok s
  | some (w, pending) =>
    if s.weaks w = .gone then .error .gone
    else (s.clear w).map fun s => s.modify o fun b => { b with life := .notifying pending }

/-- When a step can be taken. Clients have references to the objects that they use. -/
def Enabled (s : WeakState) : WeakOp → Prop
  | .new o => (s.objects o).life = .unmade
  | .addRef o => o ∈ s.strong
  | .release o => o ∈ s.strong
  | .make w p => s.weaks w = .unmade ∧ ∀ o ∈ p, o ∈ s.strong
  | .assign w p => (s.weaks w ≠ .unmade ∧ s.weaks w ≠ .gone) ∧ ∀ o ∈ p, o ∈ s.strong
  | .reset w => s.weaks w ≠ .unmade ∧ s.weaks w ≠ .gone
  | .destroy w => s.weaks w ≠ .unmade ∧ s.weaks w ≠ .gone
  | .lock w => s.weaks w ≠ .unmade ∧ s.weaks w ≠ .gone
  | .dispose o => (s.objects o).life = .dying
  | .notify o => (s.objects o).life.next.isSome
  | .free o => (s.objects o).life = .notifying []

instance (s : WeakState) : ∀ op : WeakOp, Decidable (s.Enabled op)
  | .new _ => inferInstanceAs (Decidable (_ = _))
  | .addRef _ => inferInstanceAs (Decidable (_ ∈ _))
  | .release _ => inferInstanceAs (Decidable (_ ∈ _))
  | .make _ _ => inferInstanceAs (Decidable (_ ∧ _))
  | .assign _ _ => inferInstanceAs (Decidable (_ ∧ _))
  | .reset _ => inferInstanceAs (Decidable (_ ∧ _))
  | .destroy _ => inferInstanceAs (Decidable (_ ∧ _))
  | .lock _ => inferInstanceAs (Decidable (_ ∧ _))
  | .dispose _ => inferInstanceAs (Decidable (_ = _))
  | .notify _ => inferInstanceAs (Decidable (_ = true))
  | .free _ => inferInstanceAs (Decidable (_ = _))

/-- What a step does. -/
def exec (s : WeakState) : WeakOp → Except WeakFault WeakState
  | .new o => .ok ((s.modify o fun _ => ⟨1, [], .alive⟩).hold o)
  | .addRef o =>
    (s.touch o).map fun s =>
      (s.modify o fun b => { b with refCount := b.refCount + 1 }).hold o
  | .release o => (s.touch o).map fun s => s.release o
  | .make w p => s.setPtr w p
  | .assign w p => (s.clear w).bind fun s => s.setPtr w p
  | .reset w => (s.clear w).bind fun s => s.setPtr w none
  | .destroy w => (s.clear w).map fun s => s.setWeak w .gone
  | .lock w => (s.lock w).map Prod.snd
  | .dispose o => .ok (s.modify o fun b => { b with life := .notifying b.callbacks })
  | .notify o => s.notify o
  | .free o => .ok (s.modify o fun b => { b with life := .freed })

end WeakState

/-- A program with weak pointers, which has gone wrong or not. -/
inductive WeakMachine
  | running (s : WeakState)
  | faulted (fault : WeakFault)

namespace WeakMachine

/-- There are no objects and no pointers. -/
def start : WeakMachine := .running ⟨fun _ => ⟨0, [], .unmade⟩, fun _ => .unmade, []⟩

/-- One step. -/
def step : WeakMachine → WeakOp → Option WeakMachine
  | .running s, op =>
    if s.Enabled op then
      some (match s.exec op with
        | .ok t => .running t
        | .error fault => .faulted fault)
    else none
  | .faulted _, _ => none

end WeakMachine

namespace WeakState

/-! ### The invariant -/

/-- The object that a pointer has been assigned. -/
def assigned (s : WeakState) (w : ℕ) : Option ℕ :=
  match s.weaks w with
  | .present _ a => a
  | _ => none

/-- The invariant: the references of clients are those of objects that are alive and are all that
these count; and a pointer that points to an object, which is not gone, is registered with it
and, once the callbacks have been copied, still to be notified. -/
structure Inv (s : WeakState) : Prop where
  counted : ∀ o, (s.objects o).life = .alive →
    (s.objects o).refCount = s.strong.count o ∧ 0 < s.strong.count o
  dead : ∀ o, (s.objects o).life ≠ .alive → o ∉ s.strong
  registered : ∀ o w, w ∈ (s.objects o).callbacks → s.ptr w = some o
  pointed : ∀ w o, s.ptr w = some o →
    w ∈ (s.objects o).callbacks ∧ (s.objects o).life ≠ .unmade ∧ (s.objects o).life ≠ .freed
  pending : ∀ w o l, s.ptr w = some o → (s.objects o).life = .notifying l → w ∈ l
  nodup : ∀ o, (s.objects o).callbacks.Nodup
  assigned : ∀ w o, s.ptr w = some o → s.assigned w = some o
  made : ∀ w o, s.assigned w = some o → (s.objects o).life ≠ .unmade

variable {s t : WeakState} {w v o : ℕ} {p a : Option ℕ}

theorem objects_modify (f : DisposableBase → DisposableBase) (o' : ℕ) :
    (s.modify o f).objects o' = if o' = o then f (s.objects o) else s.objects o' :=
  Function.update_apply _ _ _ _

theorem weaks_setWeak (q : DisposablePtr) (v : ℕ) :
    (s.setWeak w q).weaks v = if v = w then q else s.weaks v :=
  Function.update_apply _ _ _ _

theorem touch_of_ne (h : (s.objects o).life ≠ .freed) : s.touch o = .ok s := if_neg h

theorem alive_of_mem_strong (hs : s.Inv) (ho : o ∈ s.strong) : (s.objects o).life = .alive := by
  by_contra h
  exact hs.dead o h ho

theorem modify_objects_self (f : DisposableBase → DisposableBase) :
    (s.modify o f).objects o = f (s.objects o) :=
  Function.update_self _ _ _

theorem modify_objects_of_ne (f : DisposableBase → DisposableBase) {o' : ℕ} (h : o' ≠ o) :
    (s.modify o f).objects o' = s.objects o' :=
  Function.update_of_ne h _ _

/-- What `clear` leaves of `s`. -/
structure Cleared (s : WeakState) (w : ℕ) (t : WeakState) : Prop where
  life : ∀ o, (t.objects o).life = (s.objects o).life
  refCount : ∀ o, (t.objects o).refCount = (s.objects o).refCount
  strong : t.strong = s.strong
  ptr : t.ptr w = none
  assigned : t.assigned w = s.assigned w
  weaks : ∀ v, v ≠ w → t.weaks v = s.weaks v

theorem ptr_congr (h : t.weaks v = s.weaks v) : t.ptr v = s.ptr v := by
  rw [ptr, ptr, h]

theorem assigned_congr (h : t.weaks v = s.weaks v) : t.assigned v = s.assigned v := by
  rw [WeakState.assigned, WeakState.assigned, h]

theorem Cleared.ptr_eq_some (h : Cleared s w t) (hv : t.ptr v = some o) :
    v ≠ w ∧ s.ptr v = some o := by
  have hne : v ≠ w := by
    rintro rfl
    rw [h.ptr] at hv
    cases hv
  exact ⟨hne, (ptr_congr (h.weaks v hne)).symm.trans hv⟩

theorem Cleared.assigned_eq (h : Cleared s w t) (v : ℕ) : t.assigned v = s.assigned v := by
  by_cases hv : v = w
  · rw [hv, h.assigned]
  · exact assigned_congr (h.weaks v hv)

theorem cleared_refl (h : s.ptr w = none) : Cleared s w s :=
  ⟨fun _ => rfl, fun _ => rfl, rfl, h, rfl, fun _ _ => rfl⟩

theorem cleared_unregister (hw : s.weaks w = .present (some o) a) :
    Cleared s w ((s.unregister o w).setWeak w (.present none a)) := by
  have hself : ((s.unregister o w).setWeak w (.present none a)).weaks w = .present none a :=
    (weaks_setWeak _ w).trans (if_pos rfl)
  refine ⟨fun o' => ?_, fun o' => ?_, rfl, ?_, ?_,
    fun v hv => (weaks_setWeak _ v).trans (if_neg hv)⟩
  · change ((s.unregister o w).objects o').life = _
    by_cases ho : o' = o
    · rw [ho, unregister, modify_objects_self]
    · rw [unregister, modify_objects_of_ne _ ho]
  · change ((s.unregister o w).objects o').refCount = _
    by_cases ho : o' = o
    · rw [ho, unregister, modify_objects_self]
    · rw [unregister, modify_objects_of_ne _ ho]
  · rw [ptr, hself]
  · rw [WeakState.assigned, WeakState.assigned, hself, hw]

theorem mem_callbacks_unregister (hs : s.Inv) (hptr : s.ptr w = some o) (o' v : ℕ) :
    v ∈ ((s.unregister o w).objects o').callbacks ↔ v ∈ (s.objects o').callbacks ∧ v ≠ w := by
  by_cases ho : o' = o
  · rw [ho, unregister, modify_objects_self, (hs.nodup o).mem_erase_iff, and_comm]
  · rw [unregister, modify_objects_of_ne _ ho]
    refine ⟨fun hv => ⟨hv, ?_⟩, And.left⟩
    rintro rfl
    exact ho (Option.some.inj ((hs.registered o' v hv).symm.trans hptr))

theorem inv_unregister (hs : s.Inv) (hw : s.weaks w = .present (some o) a) :
    ((s.unregister o w).setWeak w (.present none a)).Inv := by
  have hptr : s.ptr w = some o := by rw [ptr, hw]
  have hcleared := cleared_unregister hw
  have hmem := mem_callbacks_unregister hs hptr
  refine ⟨fun o' h => ?_, fun o' h => ?_, fun o' v h => ?_, fun v o' h => ?_,
    fun v o' l h hl => ?_, fun o' => ?_, fun v o' h => ?_, fun v o' h => ?_⟩
  · rw [hcleared.life] at h
    rw [hcleared.refCount]
    exact hs.counted o' h
  · rw [hcleared.life] at h
    exact hs.dead o' h
  · obtain ⟨h, hv⟩ := (hmem o' v).mp h
    rw [ptr_congr (hcleared.weaks v hv)]
    exact hs.registered o' v h
  · obtain ⟨hv, h⟩ := hcleared.ptr_eq_some h
    obtain ⟨hmem', hlife⟩ := hs.pointed v o' h
    rw [hcleared.life]
    exact ⟨(hmem o' v).mpr ⟨hmem', hv⟩, hlife⟩
  · rw [hcleared.life] at hl
    exact hs.pending v o' l (hcleared.ptr_eq_some h).2 hl
  · change ((s.unregister o w).objects o').callbacks.Nodup
    by_cases ho : o' = o
    · rw [ho, unregister, modify_objects_self]
      exact (hs.nodup o).erase w
    · rw [unregister, modify_objects_of_ne _ ho]
      exact hs.nodup o'
  · rw [hcleared.assigned_eq]
    exact hs.assigned v o' (hcleared.ptr_eq_some h).2
  · rw [hcleared.assigned_eq] at h
    rw [hcleared.life]
    exact hs.made v o' h

theorem exists_clear (hs : s.Inv) (w : ℕ) :
    ∃ t, s.clear w = .ok t ∧ t.Inv ∧ Cleared s w t := by
  cases hw : s.weaks w with
  | unmade => exact ⟨s, by rw [clear, hw], hs, cleared_refl (by rw [ptr, hw])⟩
  | gone => exact ⟨s, by rw [clear, hw], hs, cleared_refl (by rw [ptr, hw])⟩
  | present p a =>
    cases p with
    | none => exact ⟨s, by rw [clear, hw], hs, cleared_refl (by rw [ptr, hw])⟩
    | some o =>
      refine ⟨_, ?_, inv_unregister hs hw, cleared_unregister hw⟩
      obtain ⟨-, -, hfreed⟩ := hs.pointed w o (by rw [ptr, hw])
      rw [clear, hw]
      dsimp only
      rw [touch_of_ne hfreed]
      rfl

theorem inv_setWeak (hs : s.Inv) (hptr : s.ptr w = none) {q : DisposablePtr}
    (hq : q = .gone ∨ q = .present none none) : (s.setWeak w q).Inv := by
  have hself : (s.setWeak w q).ptr w = none ∧ (s.setWeak w q).assigned w = none := by
    rw [ptr, WeakState.assigned, weaks_setWeak, if_pos rfl]
    rcases hq with rfl | rfl
    · exact ⟨rfl, rfl⟩
    · exact ⟨rfl, rfl⟩
  have hweaks (v : ℕ) (hv : v ≠ w) : (s.setWeak w q).weaks v = s.weaks v := by
    rw [weaks_setWeak, if_neg hv]
  have hptrs (v : ℕ) : (s.setWeak w q).ptr v = s.ptr v := by
    by_cases hv : v = w
    · rw [hv, hself.1, hptr]
    · exact ptr_congr (hweaks v hv)
  have hassigned {v o : ℕ} (h : (s.setWeak w q).assigned v = some o) :
      v ≠ w ∧ s.assigned v = some o := by
    have hv : v ≠ w := by
      rintro rfl
      rw [hself.2] at h
      cases h
    exact ⟨hv, (assigned_congr (hweaks v hv)).symm.trans h⟩
  refine ⟨hs.counted, hs.dead, fun o v h => (hptrs v).trans (hs.registered o v h),
    fun v o h => hs.pointed v o ((hptrs v).symm.trans h),
    fun v o l h => hs.pending v o l ((hptrs v).symm.trans h), hs.nodup, fun v o h => ?_,
    fun v o h => hs.made v o (hassigned h).2⟩
  have hv : v ≠ w := by
    rintro rfl
    rw [hself.1] at h
    cases h
  rw [assigned_congr (hweaks v hv)]
  exact hs.assigned v o ((hptrs v).symm.trans h)

/-- A pointer that points nowhere is registered with no object. -/
theorem not_mem_callbacks (hs : s.Inv) (hptr : s.ptr w = none) (o : ℕ) :
    w ∉ (s.objects o).callbacks := by
  intro h
  rw [hs.registered o w h] at hptr
  cases hptr

theorem weaks_register (v : ℕ) :
    ((s.setWeak w (.present (some o) (some o))).register o w).weaks v =
      if v = w then .present (some o) (some o) else s.weaks v :=
  weaks_setWeak _ _

theorem objects_register (hnot : w ∉ (s.objects o).callbacks) (o' : ℕ) :
    ((s.setWeak w (.present (some o) (some o))).register o w).objects o' =
      if o' = o then
        ⟨(s.objects o).refCount, (s.objects o).callbacks ++ [w], (s.objects o).life⟩
      else s.objects o' := by
  rw [register, objects_modify]
  change (if o' = o then (⟨_, if w ∈ (s.objects o).callbacks then _ else _, _⟩ : DisposableBase)
    else s.objects o') = _
  rw [if_neg hnot]
  rfl

theorem life_register (hnot : w ∉ (s.objects o).callbacks) (o' : ℕ) :
    (((s.setWeak w (.present (some o) (some o))).register o w).objects o').life =
      (s.objects o').life := by
  rw [objects_register hnot]
  split_ifs with h
  · rw [h]
  · rfl

/-- What a pointer points to after one has been registered. -/
theorem ptr_register {v o' : ℕ}
    (h : ((s.setWeak w (.present (some o) (some o))).register o w).ptr v = some o') :
    v = w ∧ o' = o ∨ v ≠ w ∧ s.ptr v = some o' := by
  by_cases hv : v = w
  · rw [ptr, weaks_register, if_pos hv] at h
    exact .inl ⟨hv, (Option.some.inj h).symm⟩
  · have hweak := @weaks_register s w o v
    rw [if_neg hv] at hweak
    exact .inr ⟨hv, (ptr_congr hweak).symm.trans h⟩

theorem inv_register (hs : s.Inv) (hptr : s.ptr w = none) (ho : (s.objects o).life = .alive) :
    ((s.setWeak w (.present (some o) (some o))).register o w).Inv := by
  have hnot := not_mem_callbacks hs hptr o
  have hobj := objects_register hnot
  have hlife := life_register hnot
  have hself : ((s.setWeak w (.present (some o) (some o))).register o w).weaks w =
      .present (some o) (some o) := (weaks_register w).trans (if_pos rfl)
  have hweaks (v : ℕ) (hv : v ≠ w) :
      ((s.setWeak w (.present (some o) (some o))).register o w).weaks v = s.weaks v :=
    (weaks_register v).trans (if_neg hv)
  refine ⟨fun o' h => ?_, fun o' h => hs.dead o' (hlife o' ▸ h), fun o' v h => ?_,
    fun v o' h => ?_, fun v o' l h hl => ?_, fun o' => ?_, fun v o' h => ?_, fun v o' h => ?_⟩
  · rw [hlife] at h
    have := hs.counted o' h
    rw [hobj]
    split_ifs with ho'
    · rw [ho'] at this
      rw [ho']
      exact this
    · exact this
  · rw [hobj] at h
    split_ifs at h with ho'
    · rw [List.mem_append, List.mem_singleton] at h
      rcases h with h | rfl
      · have hv : v ≠ w := fun hv => hnot (hv ▸ h)
        rw [ptr_congr (hweaks v hv), ho']
        exact hs.registered o v h
      · rw [ptr, hself, ho']
    · have hv : v ≠ w := fun hv => not_mem_callbacks hs hptr o' (hv ▸ h)
      rw [ptr_congr (hweaks v hv)]
      exact hs.registered o' v h
  · rw [hlife, hobj]
    rcases ptr_register h with ⟨rfl, rfl⟩ | ⟨hv, h⟩
    · rw [if_pos rfl, ho]
      simp
    · obtain ⟨hmem, hlives⟩ := hs.pointed v o' h
      refine ⟨?_, hlives⟩
      split_ifs with ho'
      · exact List.mem_append_left _ (ho' ▸ hmem)
      · exact hmem
  · rw [hlife] at hl
    rcases ptr_register h with ⟨rfl, rfl⟩ | ⟨hv, h⟩
    · rw [ho] at hl
      cases hl
    · exact hs.pending v o' l h hl
  · rw [hobj]
    split_ifs
    · exact (hs.nodup o).append (List.nodup_singleton w)
        (List.disjoint_singleton.mpr hnot)
    · exact hs.nodup o'
  · rcases ptr_register h with ⟨rfl, rfl⟩ | ⟨hv, h⟩
    · rw [WeakState.assigned, hself]
    · rw [assigned_congr (hweaks v hv)]
      exact hs.assigned v o' h
  · rw [hlife]
    by_cases hv : v = w
    · rw [hv, WeakState.assigned, hself, Option.some.injEq] at h
      rw [← h, ho]
      nofun
    · rw [assigned_congr (hweaks v hv)] at h
      exact hs.made v o' h

/-- A step that changes no pointer and no registration. -/
theorem inv_of_weaks_eq (hs : s.Inv) (hweaks : t.weaks = s.weaks)
    (hcallbacks : ∀ o, (t.objects o).callbacks = (s.objects o).callbacks)
    (hcounted : ∀ o, (t.objects o).life = .alive →
      (t.objects o).refCount = t.strong.count o ∧ 0 < t.strong.count o)
    (hdead : ∀ o, (t.objects o).life ≠ .alive → o ∉ t.strong)
    (hpointed : ∀ w o, s.ptr w = some o → (t.objects o).life ≠ .freed ∧
      ∀ l, (t.objects o).life = .notifying l → w ∈ l)
    (hmade : ∀ o, (t.objects o).life = .unmade → (s.objects o).life = .unmade) : t.Inv := by
  have hptr (w : ℕ) : t.ptr w = s.ptr w := ptr_congr (congrFun hweaks w)
  have hassigned (w : ℕ) : t.assigned w = s.assigned w := assigned_congr (congrFun hweaks w)
  refine ⟨hcounted, hdead, fun o w h => ?_, fun w o h => ?_, fun w o l h hl => ?_, fun o => ?_,
    fun w o h => ?_, fun w o h hl => ?_⟩
  · rw [hcallbacks] at h
    exact (hptr w).trans (hs.registered o w h)
  · rw [hptr] at h
    obtain ⟨hmem, hunmade, -⟩ := hs.pointed w o h
    exact ⟨(hcallbacks o).symm ▸ hmem, fun h => hunmade (hmade o h), (hpointed w o h).1⟩
  · rw [hptr] at h
    exact (hpointed w o h).2 l hl
  · rw [hcallbacks]
    exact hs.nodup o
  · rw [hptr] at h
    exact (hassigned w).trans (hs.assigned w o h)
  · rw [hassigned] at h
    exact hs.made w o h (hmade o hl)

/-! ### Steps -/

theorem objects_hold (s : WeakState) (o : ℕ) : (s.hold o).objects = s.objects := rfl

theorem strong_hold (s : WeakState) (o : ℕ) : (s.hold o).strong = o :: s.strong := rfl

theorem objects_drop (s : WeakState) (o : ℕ) : (s.drop o).objects = s.objects := rfl

theorem strong_modify (f : DisposableBase → DisposableBase) : (s.modify o f).strong = s.strong :=
  rfl

/-- What is kept of a pointer whose object stays what it is. -/
theorem pointed_of_life_eq (hs : s.Inv)
    (hlife : ∀ o, (t.objects o).life = (s.objects o).life) (h : s.ptr w = some o) :
    (t.objects o).life ≠ .freed ∧ ∀ l, (t.objects o).life = .notifying l → w ∈ l := by
  rw [hlife]
  exact ⟨(hs.pointed w o h).2.2, fun l hl => hs.pending w o l h hl⟩

theorem inv_new (hs : s.Inv) (ho : (s.objects o).life = .unmade) :
    ((s.modify o fun _ => ⟨1, [], .alive⟩).hold o).Inv := by
  have hnot : o ∉ s.strong := hs.dead o (by rw [ho]; nofun)
  have hunmade {w : ℕ} (hw : s.ptr w = some o) : False := (hs.pointed w o hw).2.1 ho
  refine inv_of_weaks_eq hs rfl (fun o' => ?_) (fun o' h => ?_) (fun o' h => ?_)
    (fun w o' h => ?_) (fun o' h => ?_)
  · rw [objects_hold]
    by_cases ho' : o' = o
    · rw [ho', modify_objects_self]
      refine (List.eq_nil_iff_forall_not_mem.mpr fun w hw => ?_).symm
      exact hunmade (hs.registered o w hw)
    · rw [modify_objects_of_ne _ ho']
  · rw [objects_hold] at h ⊢
    rw [strong_hold, strong_modify]
    by_cases ho' : o' = o
    · rw [ho', modify_objects_self, List.count_cons_self, List.count_eq_zero_of_not_mem hnot]
      exact ⟨rfl, Nat.one_pos⟩
    · rw [modify_objects_of_ne _ ho'] at h ⊢
      rw [List.count_cons_of_ne (Ne.symm ho')]
      exact hs.counted o' h
  · rw [objects_hold] at h
    rw [strong_hold, strong_modify]
    by_cases ho' : o' = o
    · rw [ho', modify_objects_self] at h
      exact absurd rfl h
    · rw [modify_objects_of_ne _ ho'] at h
      exact fun hmem => hs.dead o' h ((List.mem_cons.mp hmem).resolve_left ho')
  · have ho' : o' ≠ o := by
      rintro rfl
      exact hunmade h
    rw [objects_hold, modify_objects_of_ne _ ho']
    exact ⟨(hs.pointed w o' h).2.2, fun l hl => hs.pending w o' l h hl⟩
  · rw [objects_hold] at h
    by_cases ho' : o' = o
    · rw [ho', modify_objects_self] at h
      cases h
    · rwa [modify_objects_of_ne _ ho'] at h

theorem life_refCount (n : ℕ → ℕ) (o' : ℕ) :
    ((s.modify o fun b => { b with refCount := n b.refCount }).objects o').life =
      (s.objects o').life := by
  by_cases h : o' = o
  · rw [h, modify_objects_self]
  · rw [modify_objects_of_ne _ h]

theorem callbacks_refCount (n : ℕ → ℕ) (o' : ℕ) :
    ((s.modify o fun b => { b with refCount := n b.refCount }).objects o').callbacks =
      (s.objects o').callbacks := by
  by_cases h : o' = o
  · rw [h, modify_objects_self]
  · rw [modify_objects_of_ne _ h]

theorem inv_addRef (hs : s.Inv) (ho : (s.objects o).life = .alive) :
    ((s.modify o fun b => { b with refCount := b.refCount + 1 }).hold o).Inv := by
  refine inv_of_weaks_eq hs rfl (callbacks_refCount (· + 1)) (fun o' h => ?_) (fun o' h => ?_)
    (fun w o' h => pointed_of_life_eq hs (life_refCount (· + 1)) h)
    (fun o' h => (life_refCount (· + 1) o').symm.trans h)
  · replace h := (life_refCount (· + 1) o').symm.trans h
    rw [objects_hold, strong_hold, strong_modify]
    by_cases ho' : o' = o
    · rw [ho', modify_objects_self, List.count_cons_self, (hs.counted o ho).1]
      exact ⟨rfl, Nat.succ_pos _⟩
    · rw [modify_objects_of_ne _ ho', List.count_cons_of_ne (Ne.symm ho')]
      exact hs.counted o' h
  · replace h : (s.objects o').life ≠ .alive := fun h' =>
      h ((life_refCount (· + 1) o').trans h')
    intro hmem
    rcases List.mem_cons.mp hmem with rfl | hmem
    · exact h ho
    · exact hs.dead o' h hmem

/-- An object that is not alive counts. -/
theorem inv_refCount (hs : s.Inv) (ho : (s.objects o).life ≠ .alive) :
    (s.modify o fun b => { b with refCount := b.refCount + 1 }).Inv := by
  refine inv_of_weaks_eq hs rfl (callbacks_refCount (· + 1)) (fun o' h => ?_)
    (fun o' h => hs.dead o' fun h' => h ((life_refCount (· + 1) o').trans h'))
    (fun w o' h => pointed_of_life_eq hs (life_refCount (· + 1)) h)
    (fun o' h => (life_refCount (· + 1) o').symm.trans h)
  have h' : (s.objects o').life = .alive := (life_refCount (· + 1) o').symm.trans h
  have ho' : o' ≠ o := by
    rintro rfl
    exact ho h'
  rw [modify_objects_of_ne _ ho']
  exact hs.counted o' h'

theorem objects_release_self (s : WeakState) (o : ℕ) :
    (s.release o).objects o = ⟨(s.objects o).refCount - 1, (s.objects o).callbacks,
      if (s.objects o).refCount - 1 = 0 then .dying else (s.objects o).life⟩ := by
  rw [release, objects_drop, modify_objects_self]
  split_ifs
  · rw [modify_objects_self, objects_drop, modify_objects_self]
  · rw [objects_drop, modify_objects_self]

theorem objects_release_of_ne (s : WeakState) {o' : ℕ} (h : o' ≠ o) :
    (s.release o).objects o' = s.objects o' := by
  rw [release]
  split_ifs
  · rw [modify_objects_of_ne _ h, objects_drop, modify_objects_of_ne _ h]
  · rw [objects_drop, modify_objects_of_ne _ h]

theorem strong_release (s : WeakState) (o : ℕ) : (s.release o).strong = s.strong.erase o := by
  rw [release]
  split_ifs
  · rfl
  · rfl

theorem weaks_release (s : WeakState) (o : ℕ) : (s.release o).weaks = s.weaks := by
  rw [release]
  split_ifs
  · rfl
  · rfl

theorem inv_release (hs : s.Inv) (hmem : o ∈ s.strong) : (s.release o).Inv := by
  have ho : (s.objects o).life = .alive := alive_of_mem_strong hs hmem
  obtain ⟨hcount, hpos⟩ := hs.counted o ho
  refine inv_of_weaks_eq hs (weaks_release s o) (fun o' => ?_) (fun o' h => ?_) (fun o' h => ?_)
    (fun w o' h => ?_) (fun o' h => ?_)
  · by_cases ho' : o' = o
    · rw [ho', objects_release_self]
    · rw [objects_release_of_ne s ho']
  · rw [strong_release]
    by_cases ho' : o' = o
    · rw [ho', objects_release_self] at h ⊢
      rw [List.count_erase_self, hcount]
      refine ⟨rfl, Nat.pos_of_ne_zero fun h0 => ?_⟩
      dsimp only at h
      rw [hcount, if_pos h0] at h
      cases h
    · rw [objects_release_of_ne s ho'] at h ⊢
      rw [List.count_erase_of_ne ho']
      exact hs.counted o' h
  · rw [strong_release]
    by_cases ho' : o' = o
    · rw [ho', objects_release_self] at h
      rw [ho', ← List.count_eq_zero, List.count_erase_self, ← hcount]
      by_contra hne
      dsimp only at h
      rw [if_neg hne] at h
      exact h ho
    · rw [objects_release_of_ne s ho'] at h
      exact fun hmem' => hs.dead o' h (List.mem_of_mem_erase hmem')
  · by_cases ho' : o' = o
    · rw [ho', objects_release_self]
      dsimp only
      rw [ho]
      split_ifs
      · exact ⟨nofun, nofun⟩
      · exact ⟨nofun, nofun⟩
    · rw [objects_release_of_ne s ho']
      exact ⟨(hs.pointed w o' h).2.2, fun l hl => hs.pending w o' l h hl⟩
  · by_cases ho' : o' = o
    · rw [ho', objects_release_self] at h
      dsimp only at h
      rw [ho] at h
      split_ifs at h
    · rwa [objects_release_of_ne s ho'] at h

/-- An object that is not alive, and will not be, changes. -/
theorem inv_life (hs : s.Inv) {l : Life} (ho : (s.objects o).life ≠ .alive) (hl : l ≠ .alive)
    (hunmade : l ≠ .unmade)
    (hpointed : ∀ w, s.ptr w = some o → l ≠ .freed ∧ ∀ k, l = .notifying k → w ∈ k) :
    (s.modify o fun b => { b with life := l }).Inv := by
  have hne {o' : ℕ} (h : ((s.modify o fun b => { b with life := l }).objects o').life = .alive) :
      o' ≠ o := by
    rintro rfl
    rw [modify_objects_self] at h
    exact hl h
  refine inv_of_weaks_eq hs rfl (fun o' => ?_) (fun o' h => ?_) (fun o' h => ?_)
    (fun w o' h => ?_) (fun o' h => ?_)
  · by_cases ho' : o' = o
    · rw [ho', modify_objects_self]
    · rw [modify_objects_of_ne _ ho']
  · have ho' := hne h
    rw [modify_objects_of_ne _ ho'] at h ⊢
    exact hs.counted o' h
  · by_cases ho' : o' = o
    · exact ho' ▸ hs.dead o ho
    · rw [modify_objects_of_ne _ ho'] at h
      exact hs.dead o' h
  · by_cases ho' : o' = o
    · rw [ho', modify_objects_self]
      exact hpointed w (ho' ▸ h)
    · rw [modify_objects_of_ne _ ho']
      exact ⟨(hs.pointed w o' h).2.2, fun l hl => hs.pending w o' l h hl⟩
  · by_cases ho' : o' = o
    · rw [ho', modify_objects_self] at h
      exact absurd h hunmade
    · rwa [modify_objects_of_ne _ ho'] at h

/-! ### What weak pointers are for -/

/-- Every pointer points to the object that it has been assigned, if this is alive. -/
def Kept (s : WeakState) : Prop :=
  ∀ w o, s.assigned w = some o → (s.objects o).life = .alive → s.ptr w = some o

/-- The condition under which a step does what it should: a pointer to an object that is being
destroyed is locked only if none has been before, and a callback finds its pointer, which does
not point to an object that is alive. -/
def Ok (s : WeakState) : WeakOp → Prop
  | .lock w => ∀ o ∈ s.ptr w, (s.objects o).life = .alive ∨ (s.objects o).refCount = 0
  | .notify o => ∀ next ∈ (s.objects o).life.next,
    s.weaks next.1 ≠ .gone ∧ ∀ o' ∈ s.ptr next.1, (s.objects o').life ≠ .alive
  | _ => True

instance (s : WeakState) : ∀ op : WeakOp, Decidable (s.Ok op)
  | .lock _ => inferInstanceAs (Decidable (∀ _ ∈ _, _))
  | .notify _ => inferInstanceAs (Decidable (∀ _ ∈ _, _))
  | .new _ => .isTrue trivial
  | .addRef _ => .isTrue trivial
  | .release _ => .isTrue trivial
  | .make _ _ => .isTrue trivial
  | .assign _ _ => .isTrue trivial
  | .reset _ => .isTrue trivial
  | .destroy _ => .isTrue trivial
  | .dispose _ => .isTrue trivial
  | .free _ => .isTrue trivial

/-- What a step does, if the condition under which it does what it should is `ok`. -/
def Meets (s : WeakState) (ok : Prop) : Except WeakFault WeakState → Prop
  | .ok t => t.Inv ∧ (s.Kept → (t.Kept ↔ ok))
  | .error _ => ¬ok

/-- A step that changes no pointer and makes no object alive that a pointer has been assigned. -/
theorem kept_of_weaks_eq (h : s.Kept) (hweaks : t.weaks = s.weaks)
    (hlife : ∀ o, (t.objects o).life = .alive → (∃ w, s.assigned w = some o) →
      (s.objects o).life = .alive) : t.Kept := by
  intro w o hw ho
  rw [assigned_congr (congrFun hweaks w)] at hw
  rw [ptr_congr (congrFun hweaks w)]
  exact h w o hw (hlife o ho ⟨w, hw⟩)

theorem meets_of_kept {ok : Prop} (hok : ok) (ht : t.Inv) (hkept : s.Kept → t.Kept) :
    s.Meets ok (.ok t) :=
  ⟨ht, fun h => iff_of_true (hkept h) hok⟩

theorem meets_new (hs : s.Inv) (ho : (s.objects o).life = .unmade) :
    s.Meets (s.Ok (.new o)) (s.exec (.new o)) := by
  refine meets_of_kept trivial (inv_new hs ho) fun h => kept_of_weaks_eq h rfl ?_
  rintro o' hlife ⟨w, hw⟩
  have ho' : o' ≠ o := by
    rintro rfl
    exact hs.made w o' hw ho
  rwa [objects_hold, modify_objects_of_ne _ ho'] at hlife

theorem meets_addRef (hs : s.Inv) (hmem : o ∈ s.strong) :
    s.Meets (s.Ok (.addRef o)) (s.exec (.addRef o)) := by
  have ho : (s.objects o).life = .alive := alive_of_mem_strong hs hmem
  rw [exec, touch_of_ne (by rw [ho]; nofun)]
  exact meets_of_kept trivial (inv_addRef hs ho) fun h => kept_of_weaks_eq h rfl
    fun o' hlife _ => (life_refCount (· + 1) o').symm.trans hlife

theorem meets_release (hs : s.Inv) (hmem : o ∈ s.strong) :
    s.Meets (s.Ok (.release o)) (s.exec (.release o)) := by
  have ho : (s.objects o).life = .alive := alive_of_mem_strong hs hmem
  rw [exec, touch_of_ne (by rw [ho]; nofun)]
  refine meets_of_kept trivial (inv_release hs hmem) fun h =>
    kept_of_weaks_eq h (weaks_release s o) fun o' hlife _ => ?_
  by_cases ho' : o' = o
  · rw [ho', ho]
  · rwa [objects_release_of_ne s ho'] at hlife

/-- What `setPtr` leaves of `s`. -/
theorem exists_setPtr (hs : s.Inv) (hptr : s.ptr w = none) (hp : ∀ o ∈ p, o ∈ s.strong) :
    ∃ t, s.setPtr w p = .ok t ∧ t.Inv ∧ t.ptr w = p ∧ t.assigned w = p ∧
      (∀ v, v ≠ w → t.weaks v = s.weaks v) ∧
      ∀ o, (t.objects o).life = (s.objects o).life := by
  cases p with
  | none =>
    refine ⟨_, rfl, inv_setWeak hs hptr (.inr rfl), ?_, ?_, fun v hv => ?_, fun _ => rfl⟩
    · rw [ptr, weaks_setWeak, if_pos rfl]
    · rw [WeakState.assigned, weaks_setWeak, if_pos rfl]
    · rw [weaks_setWeak, if_neg hv]
  | some o =>
    have ho : (s.objects o).life = .alive := alive_of_mem_strong hs (hp o rfl)
    have hself : ((s.setWeak w (.present (some o) (some o))).register o w).weaks w =
        .present (some o) (some o) := (weaks_register w).trans (if_pos rfl)
    refine ⟨(s.setWeak w (.present (some o) (some o))).register o w, ?_,
      inv_register hs hptr ho, ?_, ?_, fun v hv => ?_, fun o' => ?_⟩
    · rw [setPtr, touch_of_ne (by rw [ho]; decide)]
      rfl
    · rw [ptr, hself]
    · rw [WeakState.assigned, hself]
    · exact (weaks_setWeak _ _).trans (if_neg hv)
    · rw [register]
      by_cases ho' : o' = o
      · rw [ho', modify_objects_self]
        rfl
      · rw [modify_objects_of_ne _ ho']
        rfl

/-- A pointer is assigned, after it has been cleared. -/
theorem meets_clear_setPtr (hs : s.Inv) (w : ℕ) (hp : ∀ o ∈ p, o ∈ s.strong) :
    s.Meets True ((s.clear w).bind fun s => s.setPtr w p) := by
  obtain ⟨u, hu, hinv, hcleared⟩ := exists_clear hs w
  obtain ⟨t, ht, htinv, hptr, hassigned, hweaks, hlife⟩ :=
    exists_setPtr hinv hcleared.ptr (p := p) (hcleared.strong.symm ▸ hp)
  rw [hu]
  change s.Meets True (u.setPtr w p)
  rw [ht]
  refine meets_of_kept trivial htinv fun h v o hv ho => ?_
  by_cases hvw : v = w
  · rw [hvw, hassigned] at hv
    rw [hvw, hptr, hv]
  · have hweaks' : t.weaks v = s.weaks v := (hweaks v hvw).trans (hcleared.weaks v hvw)
    rw [assigned_congr hweaks'] at hv
    rw [ptr_congr hweaks']
    exact h v o hv (((hlife o).trans (hcleared.life o)).symm.trans ho)

theorem meets_make (hs : s.Inv) (hw : s.weaks w = .unmade) (hp : ∀ o ∈ p, o ∈ s.strong) :
    s.Meets (s.Ok (.make w p)) (s.exec (.make w p)) := by
  have hclear : s.clear w = .ok s := by rw [clear, hw]
  have h := meets_clear_setPtr hs w hp
  rw [hclear] at h
  exact h

theorem meets_destroy (hs : s.Inv) (w : ℕ) :
    s.Meets (s.Ok (.destroy w)) (s.exec (.destroy w)) := by
  obtain ⟨u, hu, hinv, hcleared⟩ := exists_clear hs w
  rw [exec, hu]
  refine meets_of_kept trivial (inv_setWeak hinv hcleared.ptr (.inl rfl)) fun h v o hv ho => ?_
  have hvw : v ≠ w := by
    rintro rfl
    rw [WeakState.assigned, weaks_setWeak, if_pos rfl] at hv
    cases hv
  have hweaks : (u.setWeak w .gone).weaks v = s.weaks v :=
    ((weaks_setWeak _ v).trans (if_neg hvw)).trans (hcleared.weaks v hvw)
  rw [assigned_congr hweaks] at hv
  rw [ptr_congr hweaks]
  exact h v o hv ((hcleared.life o).symm.trans ho)

/-- A pointer to an object that is not alive is cleared. -/
theorem kept_of_cleared (h : s.Kept) (ht : Cleared s w t)
    (hw : ∀ o, s.ptr w = some o → (s.objects o).life ≠ .alive) : t.Kept := by
  intro v o hv ho
  rw [ht.life] at ho
  by_cases hvw : v = w
  · rw [hvw, ht.assigned] at hv
    exact absurd ho (hw o (h w o hv ho))
  · rw [assigned_congr (ht.weaks v hvw)] at hv
    rw [ptr_congr (ht.weaks v hvw)]
    exact h v o hv ho

theorem meets_lock (hs : s.Inv) (w : ℕ) : s.Meets (s.Ok (.lock w)) (s.exec (.lock w)) := by
  rw [exec, lock]
  cases hptr : s.ptr w with
  | none =>
    refine meets_of_kept (fun o ho => ?_) hs id
    rw [hptr, Option.mem_def] at ho
    cases ho
  | some o =>
    dsimp only
    rw [touch_of_ne (hs.pointed w o hptr).2.2]
    change s.Meets _ (Except.map Prod.snd (if ((s.modify o _).objects o).refCount < 2 then _ else
      if ((s.modify o _).objects o).life = .alive then _ else _))
    rw [modify_objects_self]
    dsimp only
    by_cases ho : (s.objects o).life = .alive
    · have hpos := (hs.counted o ho).1 ▸ (hs.counted o ho).2
      rw [if_neg (by omega), if_pos ho]
      refine meets_of_kept (fun o' ho' => ?_) (inv_addRef hs ho) fun h => kept_of_weaks_eq h rfl
        fun o' hlife _ => (life_refCount (· + 1) o').symm.trans hlife
      rw [hptr, Option.mem_def, Option.some.injEq] at ho'
      exact .inl (ho' ▸ ho)
    · by_cases h0 : (s.objects o).refCount = 0
      · rw [if_pos (by omega)]
        obtain ⟨t, ht, htinv, hcleared⟩ := exists_clear (inv_refCount hs ho) w
        rw [ht]
        have hkept (h : s.Kept) :
            (s.modify o fun b => { b with refCount := b.refCount + 1 }).Kept :=
          kept_of_weaks_eq h rfl fun o' hlife _ => (life_refCount (· + 1) o').symm.trans hlife
        refine meets_of_kept (fun o' ho' => ?_) htinv fun h => kept_of_cleared (hkept h) hcleared
          fun o' ho' hlife => ?_
        · rw [hptr, Option.mem_def, Option.some.injEq] at ho'
          exact .inr (ho' ▸ h0)
        · have ho'' : o' = o := Option.some.inj (ho'.symm.trans hptr)
          rw [life_refCount (· + 1), ho''] at hlife
          exact ho hlife
      · rw [if_neg (by omega), if_neg ho]
        intro hok
        rcases hok o hptr with halive | hzero
        · exact ho halive
        · exact h0 hzero

/-- When `lock` gives a reference. -/
theorem exists_lock_iff (hs : s.Inv) :
    (∃ t, s.lock w = .ok (some o, t)) ↔ s.ptr w = some o ∧ (s.objects o).life = .alive := by
  rw [lock]
  cases hptr : s.ptr w with
  | none => exact ⟨nofun, nofun⟩
  | some o' =>
    dsimp only
    rw [touch_of_ne (hs.pointed w o' hptr).2.2]
    change (∃ t, (if ((s.modify o' _).objects o').refCount < 2 then _ else
      if ((s.modify o' _).objects o').life = .alive then _ else _) = _) ↔ _
    rw [modify_objects_self, Option.some.injEq]
    dsimp only
    by_cases ho : (s.objects o').life = .alive
    · have hpos := (hs.counted o' ho).1 ▸ (hs.counted o' ho).2
      rw [if_neg (by omega), if_pos ho]
      constructor
      · rintro ⟨t, ht⟩
        cases ht
        exact ⟨rfl, ho⟩
      · rintro ⟨rfl, -⟩
        exact ⟨_, rfl⟩
    · refine iff_of_false ?_ ?_
      · rintro ⟨t, ht⟩
        by_cases h0 : (s.objects o').refCount + 1 < 2
        · obtain ⟨u, hu, -⟩ := exists_clear (inv_refCount hs ho) w
          rw [if_pos h0, hu] at ht
          cases ht
        · rw [if_neg h0, if_neg ho] at ht
          cases ht
      · rintro ⟨rfl, halive⟩
        exact ho halive

theorem next_eq_some {l : Life} {k : List ℕ} :
    l.next = some (w, k) ↔ l = .notifying (w :: k) := by
  cases l with
  | notifying pending =>
    cases pending with
    | nil => exact ⟨nofun, nofun⟩
    | cons v pending => simp [Life.next]
  | unmade => exact ⟨nofun, nofun⟩
  | alive => exact ⟨nofun, nofun⟩
  | dying => exact ⟨nofun, nofun⟩
  | freed => exact ⟨nofun, nofun⟩

theorem kept_life {l : Life} (ho : (s.objects o).life ≠ .alive) (hl : l ≠ .alive) :
    (s.modify o fun b => { b with life := l }).Kept ↔ s.Kept := by
  have hlife (o' : ℕ) : ((s.modify o fun b => { b with life := l }).objects o').life = .alive ↔
      (s.objects o').life = .alive := by
    by_cases ho' : o' = o
    · rw [ho', modify_objects_self]
      exact iff_of_false hl ho
    · rw [modify_objects_of_ne _ ho']
  refine forall_congr' fun w => forall_congr' fun o' => ?_
  rw [hlife]
  rfl

theorem meets_notify (hs : s.Inv) (hen : (s.objects o).life.next.isSome) :
    s.Meets (s.Ok (.notify o)) (s.exec (.notify o)) := by
  obtain ⟨⟨w, l⟩, hnext⟩ := Option.isSome_iff_exists.mp hen
  have hlife := next_eq_some.mp hnext
  rw [exec, notify, hnext]
  dsimp only
  by_cases hgone : s.weaks w = .gone
  · rw [if_pos hgone]
    exact fun hok => (hok (w, l) hnext).1 hgone
  rw [if_neg hgone]
  obtain ⟨t, ht, htinv, hcleared⟩ := exists_clear hs w
  rw [ht]
  have htlife : (t.objects o).life = .notifying (w :: l) := (hcleared.life o).trans hlife
  have hdead : (t.objects o).life ≠ .alive := by
    rw [htlife]
    nofun
  refine ⟨inv_life htinv hdead nofun nofun fun v hv => ⟨nofun, ?_⟩, fun h => ?_⟩
  · rintro k ⟨⟩
    refine (List.mem_cons.mp (htinv.pending v o _ hv htlife)).resolve_left ?_
    rintro rfl
    rw [hcleared.ptr] at hv
    cases hv
  · refine (kept_life (l := .notifying l) hdead nofun).trans ?_
    constructor
    · intro htkept next hnext'
      rw [hnext, Option.mem_def, Option.some.injEq] at hnext'
      subst hnext'
      refine ⟨hgone, fun o' ho' halive => ?_⟩
      have hptr := htkept w o' (hcleared.assigned.trans (hs.assigned w o' ho'))
        ((hcleared.life o').trans halive)
      rw [hcleared.ptr] at hptr
      cases hptr
    · intro hok
      exact kept_of_cleared h hcleared (hok (w, l) hnext).2

theorem meets_dispose (hs : s.Inv) (ho : (s.objects o).life = .dying) :
    s.Meets (s.Ok (.dispose o)) (s.exec (.dispose o)) := by
  have hdead : (s.objects o).life ≠ .alive := by
    rw [ho]
    nofun
  have hobj : (s.modify o fun b => { b with life := .notifying b.callbacks }) =
      s.modify o fun b => { b with life := .notifying (s.objects o).callbacks } := rfl
  rw [exec, hobj]
  refine meets_of_kept trivial (inv_life hs hdead nofun nofun fun w hw => ⟨nofun, ?_⟩)
    (kept_life (l := .notifying (s.objects o).callbacks) hdead nofun).mpr
  rintro k ⟨⟩
  exact (hs.pointed w o hw).1

theorem meets_free (hs : s.Inv) (ho : (s.objects o).life = .notifying []) :
    s.Meets (s.Ok (.free o)) (s.exec (.free o)) := by
  have hdead : (s.objects o).life ≠ .alive := by
    rw [ho]
    nofun
  refine meets_of_kept trivial (inv_life hs hdead nofun nofun fun w hw => ?_)
    (kept_life (l := .freed) hdead nofun).mpr
  exact absurd (hs.pending w o [] hw ho) List.not_mem_nil

/-- **A step does what it should under its condition, and only then.** -/
theorem meets_exec (hs : s.Inv) {op : WeakOp} (hen : s.Enabled op) :
    s.Meets (s.Ok op) (s.exec op) := by
  cases op with
  | new o => exact meets_new hs hen
  | addRef o => exact meets_addRef hs hen
  | release o => exact meets_release hs hen
  | make w p => exact meets_make hs hen.1 hen.2
  | assign w p => exact meets_clear_setPtr hs w hen.2
  | reset w => exact meets_clear_setPtr hs w nofun
  | destroy w => exact meets_destroy hs w
  | lock w => exact meets_lock hs w
  | dispose o => exact meets_dispose hs hen
  | notify o => exact meets_notify hs hen
  | free o => exact meets_free hs hen

end WeakState

/-! ### Runs -/

namespace WeakMachine

/-- The invariant. -/
def Inv : WeakMachine → Prop
  | .running s => s.Inv
  | .faulted _ => True

/-- Nothing has gone wrong, and every pointer points to the object that it has been assigned, if
this is alive. -/
def Sound : WeakMachine → Prop
  | .running s => s.Kept
  | .faulted _ => False

/-- The condition under which a step does what it should. -/
def Ok : WeakMachine → WeakOp → Prop
  | .running s, op => s.Ok op
  | .faulted _, _ => True

instance : ∀ (m : WeakMachine) (op : WeakOp), Decidable (m.Ok op)
  | .running s, op => inferInstanceAs (Decidable (s.Ok op))
  | .faulted _, _ => .isTrue trivial

variable {m m' : WeakMachine} {op : WeakOp}

theorem inv_start : start.Inv :=
  ⟨nofun, fun _ _ => List.not_mem_nil, nofun, nofun, nofun, fun _ => List.nodup_nil, nofun, nofun⟩

theorem step_meets {s : WeakState} (hs : s.Inv) (h : step (.running s) op = some m') :
    m'.Inv ∧ (s.Kept → (m'.Sound ↔ s.Ok op)) := by
  rw [step] at h
  split_ifs at h with hen
  rw [Option.some.injEq] at h
  have hmeets := WeakState.meets_exec hs hen
  cases hexec : s.exec op with
  | ok t =>
    rw [hexec] at h hmeets
    subst h
    exact hmeets
  | error fault =>
    rw [hexec] at h hmeets
    subst h
    exact ⟨trivial, fun _ => iff_of_false id hmeets⟩

/-- **When weak pointers do what they should.** In any interleaving, nothing goes wrong and every
pointer points to the object that it has been assigned, if this is alive, precisely if no pointer
to an object that is being destroyed is locked after another one, and every callback that a
destructor calls finds its pointer and does not find it pointing to an object that is alive. -/
theorem always_sound_iff (l : List WeakOp) :
    Always step Sound start l ↔ Guarded step Ok start l := by
  refine always_iff_guarded l (J := Inv) (fun m op m' hm h => ?_) (fun m op m' hm hsound h => ?_)
    inv_start nofun
  · cases m with
    | running s => exact (step_meets hm h).1
    | faulted fault => cases h
  · cases m with
    | running s => exact (step_meets hm h).2 hsound
    | faulted fault => cases h

/-- **What `lock` gives.** In all other runs, a client gets a reference from a pointer precisely
if some client has one to the object that the pointer has been assigned; what clients have
references to is alive and counts just these; and no pointer points to an object that is gone. -/
theorem lock_of_run {l : List WeakOp} {s : WeakState} (hg : Guarded step Ok start l)
    (h : run step start l = some (.running s)) :
    (∀ w o, (∃ t, s.lock w = .ok (some o, t)) ↔ s.assigned w = some o ∧ o ∈ s.strong) ∧
    (∀ o ∈ s.strong, (s.objects o).life = .alive ∧
      (s.objects o).refCount = s.strong.count o) ∧
    ∀ w o, s.ptr w = some o → (s.objects o).life ≠ .unmade ∧ (s.objects o).life ≠ .freed := by
  have hboth : Always step (fun m => m.Inv ∧ m.Sound) start l := by
    refine hg.always (fun m op m' hm hok hstep => ?_) ⟨inv_start, nofun⟩
    cases m with
    | running s =>
      obtain ⟨hinv, hsound⟩ := step_meets hm.1 hstep
      exact ⟨hinv, (hsound hm.2).mpr hok⟩
    | faulted fault => cases hstep
  obtain ⟨hinv, hkept⟩ : s.Inv ∧ s.Kept := hboth l _ List.prefix_rfl h
  refine ⟨fun w o => ?_, fun o ho => ?_, fun w o hw => (hinv.pointed w o hw).2⟩
  · rw [WeakState.exists_lock_iff hinv]
    constructor
    · rintro ⟨hptr, ho⟩
      exact ⟨hinv.assigned w o hptr, List.count_pos_iff.mp (hinv.counted o ho).2⟩
    · rintro ⟨hassigned, ho⟩
      have halive := WeakState.alive_of_mem_strong hinv ho
      exact ⟨hkept w o hassigned halive, halive⟩
  · have halive := WeakState.alive_of_mem_strong hinv ho
    exact ⟨halive, (hinv.counted o halive).1⟩

/-- The last reference to an object is released, and the pointer is locked before the object is
gone. Another object is alive, with a pointer to it that has been locked. -/
theorem lock_of_run_late : ∃ s, run step start [.new 0, .make 0 (some 0), .lock 0, .release 0,
      .new 1, .make 1 (some 1), .release 0, .lock 0, .lock 1, .dispose 0, .free 0] =
        some (.running s) ∧
    (s.strong = [1, 1] ∧ s.ptr 0 = none ∧ s.ptr 1 = some 1) ∧
    (∀ w o, (∃ t, s.lock w = .ok (some o, t)) ↔ s.assigned w = some o ∧ o ∈ s.strong) ∧
    (∀ o ∈ s.strong, (s.objects o).life = .alive ∧
      (s.objects o).refCount = s.strong.count o) ∧
    ∀ w o, s.ptr w = some o → (s.objects o).life ≠ .unmade ∧ (s.objects o).life ≠ .freed :=
  ⟨_, rfl, ⟨rfl, rfl, rfl⟩, @lock_of_run [.new 0, .make 0 (some 0), .lock 0, .release 0, .new 1,
    .make 1 (some 1), .release 0, .lock 0, .lock 1, .dispose 0, .free 0] _ (by decide) rfl⟩

end WeakMachine

end UtilityFramework
