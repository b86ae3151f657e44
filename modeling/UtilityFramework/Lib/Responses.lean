import Mathlib.Data.List.Basic

/-!
# Machines that answer

A machine is given requests, answers each and goes over into another state. Two machines that
are related by what every request keeps, with the same answers, give the same answers to every
sequence of requests (`simulates`).

Where a request stores values in cells and all other cells stay as they are, a cell holds what
was stored in it last (`get_after`).
-/

namespace UtilityFramework

namespace Responses

universe u v w

variable {σ τ : Type u} {ι : Type v} {ο : Type w} (step : σ → ι → ο × σ)

/-- The state after the requests `l`. -/
def after : σ → List ι → σ
  | s, [] => s
  | s, a :: l => after (step s a).2 l

/-- The answers to the requests `l`. -/
def answers : σ → List ι → List ο
  | _, [] => []
  | s, a :: l => (step s a).1 :: answers (step s a).2 l

variable {step} {step' : τ → ι → ο × τ} {R : σ → τ → Prop} {ok : ι → Prop}

/-- **Simulation.** -/
theorem simulates {l : List ι} (hl : ∀ a ∈ l, ok a)
    (hstep : ∀ s t a, ok a → R s t →
      (step s a).1 = (step' t a).1 ∧ R (step s a).2 (step' t a).2) {s : σ} {t : τ}
    (h : R s t) :
    answers step s l = answers step' t l ∧ R (after step s l) (after step' t l) := by
  induction l generalizing s t with
  | nil => exact ⟨rfl, h⟩
  | cons a l ih =>
    obtain ⟨hanswer, hnext⟩ := hstep s t a (hl a List.mem_cons_self) h
    obtain ⟨hanswers, hafter⟩ := ih (fun b hb => hl b (List.mem_cons_of_mem a hb)) hnext
    exact ⟨congrArg₂ List.cons hanswer hanswers, hafter⟩

/-! ### Cells -/

section Cells

variable {κ : Type*} {β : Type*} {stores : σ → ι → κ → Option β}

/-- The value stored last in the cell `k`, if there is one: `stores s a k` is what the request
`a` stores there in the state `s`. -/
def lastStored (step : σ → ι → ο × σ) (stores : σ → ι → κ → Option β) (k : κ) :
    σ → List ι → Option β
  | _, [] => none
  | s, a :: l => (lastStored step stores k (step s a).2 l).or (stores s a k)

/-- **A cell holds what was stored in it last.** -/
theorem get_after (get : σ → κ → Option β)
    (hget : ∀ s a k, get (step s a).2 k = (stores s a k).or (get s k)) (s : σ) (l : List ι)
    (k : κ) : get (after step s l) k = (lastStored step stores k s l).or (get s k) := by
  induction l generalizing s with
  | nil => rfl
  | cons a l ih => rw [after, ih, hget, lastStored, Option.or_assoc]

end Cells

end Responses

end UtilityFramework
