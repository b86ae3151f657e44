import Mathlib.Data.List.Nodup
import Mathlib.Data.List.Perm.Basic

/-!
# Callback handlers

`utils::callback_handler`: an ordered collection of callbacks, each of them registered at
most once. `raiseCallbacks` clones the collection under its lock and invokes the clones in
order of registration, so a raise is one invocation for each callback registered at the
moment of the raise.
-/

namespace UtilityFramework

variable {κ : Type*} [DecidableEq κ]

/-- `utils::callback_handler`. No callback is registered twice. -/
@[ext]
structure CallbackHandler (κ : Type*) where
  callbacks : List κ
  nodup : callbacks.Nodup

namespace CallbackHandler

instance : Membership κ (CallbackHandler κ) := ⟨fun h c => c ∈ h.callbacks⟩

instance (h : CallbackHandler κ) (c : κ) : Decidable (c ∈ h) :=
  inferInstanceAs (Decidable (c ∈ h.callbacks))

omit [DecidableEq κ] in
theorem mem_def {h : CallbackHandler κ} {c : κ} : c ∈ h ↔ c ∈ h.callbacks := Iff.rfl

/-- A handler without callbacks. -/
def empty : CallbackHandler κ := ⟨[], List.nodup_nil⟩

/-- A handler with one callback. -/
def singleton (c : κ) : CallbackHandler κ := ⟨[c], List.nodup_singleton c⟩

/-- `add_callback`: false if the callback is registered already. -/
def addCallback (h : CallbackHandler κ) (c : κ) : CallbackHandler κ × Bool :=
  if hc : c ∈ h.callbacks then (h, false)
  else (⟨h.callbacks ++ [c], List.nodup_append.mpr
    ⟨h.nodup, List.nodup_singleton c, fun _ ha _ hb hab =>
      hc (List.mem_singleton.mp hb ▸ hab ▸ ha)⟩⟩, true)

/-- `remove_callback`: false if the callback is not registered. -/
def removeCallback (h : CallbackHandler κ) (c : κ) : CallbackHandler κ × Bool :=
  if c ∈ h.callbacks then (⟨h.callbacks.erase c, h.nodup.erase c⟩, true) else (h, false)

/-- `raise_callbacks`: the invocations made, in order. -/
def raiseCallbacks {α : Type*} (h : CallbackHandler κ) (a : α) : List (κ × α) :=
  h.callbacks.map fun c => (c, a)

omit [DecidableEq κ] in
@[simp] theorem not_mem_empty (c : κ) : c ∉ (empty : CallbackHandler κ) :=
  List.not_mem_nil

@[simp] theorem addCallback_empty (c : κ) : empty.addCallback c = (singleton c, true) := rfl

@[simp] theorem removeCallback_singleton (c : κ) :
    (singleton c).removeCallback c = (empty, true) := by
  simp [removeCallback, singleton, empty]

@[simp] theorem mem_addCallback {h : CallbackHandler κ} {c d : κ} :
    d ∈ (h.addCallback c).1 ↔ d ∈ h ∨ d = c := by
  rw [addCallback]
  split
  · rename_i hc
    exact ⟨Or.inl, fun hd => hd.elim id fun hdc => hdc ▸ hc⟩
  · simp [mem_def]

@[simp] theorem mem_removeCallback {h : CallbackHandler κ} {c d : κ} :
    d ∈ (h.removeCallback c).1 ↔ d ∈ h ∧ d ≠ c := by
  rw [removeCallback]
  split
  · rw [mem_def, h.nodup.mem_erase_iff, mem_def, and_comm]
  · rename_i hc
    exact ⟨fun hd => ⟨hd, fun hdc => hc (hdc ▸ hd)⟩, And.left⟩

/-- Registering several callbacks one after the other. -/
theorem mem_foldl_addCallback {cs : List κ} {h : CallbackHandler κ} {d : κ} :
    d ∈ cs.foldl (fun h c => (h.addCallback c).1) h ↔ d ∈ h ∨ d ∈ cs := by
  induction cs generalizing h with
  | nil => simp
  | cons c cs ih => rw [List.foldl_cons, ih, mem_addCallback, List.mem_cons, or_assoc]

/-- Removing several callbacks one after the other. -/
theorem mem_foldl_removeCallback {cs : List κ} {h : CallbackHandler κ} {d : κ} :
    d ∈ cs.foldl (fun h c => (h.removeCallback c).1) h ↔ d ∈ h ∧ d ∉ cs := by
  induction cs generalizing h with
  | nil => simp
  | cons c cs ih =>
    rw [List.foldl_cons, ih, mem_removeCallback, List.mem_cons, not_or, and_assoc]

/-- A registered callback is invoked exactly once by a raise, any other not at all. -/
theorem filter_raiseCallbacks {α : Type*} (h : CallbackHandler κ) (a : α) (c : κ) :
    (h.raiseCallbacks a).filter (fun i => decide (i.1 = c)) =
      if c ∈ h then [(c, a)] else [] := by
  have hmap : (h.raiseCallbacks a).filter (fun i => decide (i.1 = c)) =
      (h.callbacks.filter fun d => decide (d = c)).map fun d => (d, a) := by
    rw [raiseCallbacks, List.filter_map]
    rfl
  have hfilter : h.callbacks.filter (fun d => decide (d = c)) =
      List.replicate (h.callbacks.count c) c := List.filter_eq c
  rw [hmap, hfilter]
  split
  · rename_i hc
    rw [List.count_eq_one_of_mem h.nodup hc]
    rfl
  · rename_i hc
    rw [List.count_eq_zero_of_not_mem hc]
    rfl

end CallbackHandler

end UtilityFramework
