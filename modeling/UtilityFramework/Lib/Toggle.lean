import Mathlib.Algebra.Group.Nat.Even
import Mathlib.Data.List.Basic

/-!
# A remote flag that is toggled

A server keeps a flag. A client keeps a belief about it; to change the flag, it asks for it to
be toggled when its view is not the value it wants, and for the flag itself behind that. The
reply to a query overwrites the belief. Requests and replies are delivered in order, at any
time, and while the client is not connected, its view is that the flag is down.

* `settled` is what the flag and the belief come to when all that is under way has been
  delivered; deliveries do not change it (`settled_serve`, `settled_receive`).
* `ask_settled_fst` says what a request of the client makes of the flag: it comes out as
  wanted precisely if the view was the flag to come.
* `Coherent` states have the same flag and belief to come. Every operation keeps it, so that
  a connected client has the right view whenever nothing is under way.
-/

namespace UtilityFramework

namespace Toggle

/-- A request to toggle the flag, or for its value. -/
inductive Request
  | toggle
  | query
  deriving DecidableEq

/-- The flag, the belief, and the requests and replies that are under way. -/
structure State where
  flag : Bool
  belief : Bool
  connected : Bool
  requests : List Request
  replies : List Bool

namespace State

variable (s : State)

/-- What the client takes the flag to be. -/
def view : Bool := s.connected && s.belief

/-- The query by which the client looks at the flag, if it is connected. -/
def look : List Request := if s.connected then [.query] else []

/-- The client wants the flag to be `wanted`. -/
def ask (wanted : Bool) : State :=
  if s.view = wanted then { s with requests := s.requests ++ s.look }
  else { s with
    belief := wanted
    requests := s.requests ++ (s.look ++ [.toggle, .query]) }

/-- The server handles the next request. -/
def serve : Option State :=
  match s.requests with
  | [] => none
  | .toggle :: requests => some { s with flag := !s.flag, requests := requests }
  | .query :: requests =>
    some { s with requests := requests, replies := s.replies ++ [s.flag] }

/-- The client takes the next reply. -/
def receive : Option State :=
  match s.replies with
  | [] => none
  | b :: replies => some { s with belief := b, replies := replies }

end State

/-- The flag and the belief when a request and its reply have been delivered. -/
def Request.settle (p : Bool × Bool) : Request → Bool × Bool
  | .toggle => (!p.1, p.2)
  | .query => (p.1, p.1)

namespace State

/-- The flag and the belief when all that is under way has been delivered. -/
def settled (s : State) : Bool × Bool :=
  s.requests.foldl Request.settle (s.flag, s.replies.getLastD s.belief)

/-- The flag and the belief to come are the same. -/
def Coherent (s : State) : Prop := s.settled.2 = s.settled.1

variable {s t : State}

/-! ### The flag to come -/

/-- The flag to come does not depend on the belief. -/
theorem foldl_settle_fst (requests : List Request) (f b : Bool) :
    (requests.foldl Request.settle (f, b)).1 =
      if Even (requests.count .toggle) then f else !f := by
  induction requests generalizing f b with
  | nil => simp
  | cons q requests ih =>
    cases q with
    | toggle =>
      rw [List.foldl_cons, Request.settle, ih, List.count_cons_self]
      by_cases heven : Even (requests.count .toggle)
      · rw [if_pos heven, if_neg (by rw [Nat.even_add_one]; exact not_not_intro heven)]
      · rw [if_neg heven, if_pos (by rwa [Nat.even_add_one]), Bool.not_not]
    | query =>
      rw [List.foldl_cons, Request.settle, ih, List.count_cons_of_ne (by decide)]

theorem settled_fst (s : State) :
    s.settled.1 = if Even (s.requests.count .toggle) then s.flag else !s.flag :=
  foldl_settle_fst _ _ _

/-- What a request of the client makes of the flag. -/
theorem ask_settled_fst (s : State) (wanted : Bool) :
    (s.ask wanted).settled.1 = if s.view = wanted then s.settled.1 else !s.settled.1 := by
  have hlook (requests : List Request) (f b : Bool) :
      ((requests ++ s.look).foldl Request.settle (f, b)).1 =
        (requests.foldl Request.settle (f, b)).1 := by
    rw [foldl_settle_fst, foldl_settle_fst, List.count_append]
    have hcount : s.look.count .toggle = 0 := by
      rw [look]
      split_ifs <;> decide
    rw [hcount, Nat.add_zero]
  rw [ask]
  split_ifs with hview
  · exact hlook _ _ _
  · rw [settled, ← List.append_assoc, List.foldl_append]
    show (!((s.requests ++ s.look).foldl Request.settle _).1) = _
    rw [hlook, foldl_settle_fst, settled_fst]

/-- The flag comes out as it is wanted precisely if the view was right. -/
theorem ask_settled_fst_eq_iff (s : State) (wanted : Bool) :
    (s.ask wanted).settled.1 = wanted ↔ s.view = s.settled.1 := by
  rw [ask_settled_fst]
  split_ifs with hview
  · rw [hview, eq_comm]
  · revert hview
    cases s.view <;> cases s.settled.1 <;> cases wanted <;> decide

/-! ### Deliveries -/

theorem settled_serve (h : s.serve = some t) : t.settled = s.settled := by
  rw [serve] at h
  split at h
  · exact absurd h (by simp)
  · rename_i requests hreq
    rw [Option.some.injEq] at h
    subst h
    rw [settled, settled, hreq]
    rfl
  · rename_i requests hreq
    rw [Option.some.injEq] at h
    subst h
    rw [settled, settled, hreq, List.getLastD_concat]
    rfl

theorem settled_receive (h : s.receive = some t) : t.settled = s.settled := by
  rw [receive] at h
  split at h
  · exact absurd h (by simp)
  · rename_i b replies hrep
    rw [Option.some.injEq] at h
    subst h
    rw [settled, settled, hrep, List.getLastD_cons]

/-! ### Coherence -/

theorem Coherent.of_settled (h : s.Coherent) (heq : t.settled = s.settled) : t.Coherent := by
  rw [Coherent, heq]
  exact h

/-- Behind everything that is under way there is a query, or nothing has changed. -/
theorem Coherent.ask (h : s.Coherent) (wanted : Bool) : (s.ask wanted).Coherent := by
  have hquery (requests : List Request) (p : Bool × Bool) :
      ((requests ++ [Request.query]).foldl Request.settle p).2 =
        ((requests ++ [Request.query]).foldl Request.settle p).1 := by
    rw [List.foldl_append]
    rfl
  rw [State.ask]
  split_ifs with hview
  · rw [Coherent, settled]
    cases hconn : s.connected with
    | true => simpa only [look, hconn, if_true] using hquery _ _
    | false =>
      simp only [look, hconn, Bool.false_eq_true, if_false, List.append_nil]
      exact h
  · have hlast : s.requests ++ (s.look ++ [.toggle, .query]) =
        (s.requests ++ s.look ++ [.toggle]) ++ [.query] := by simp
    rw [Coherent, settled, hlast]
    exact hquery _ _

/-- While nothing is under way, a connected client has the right view. -/
theorem Coherent.view_eq (h : s.Coherent) (hconn : s.connected = true) (hreq : s.requests = [])
    (hrep : s.replies = []) : s.view = s.settled.1 := by
  rw [← h, settled, hreq, hrep, view, hconn]
  rfl

end State

end Toggle

end UtilityFramework
