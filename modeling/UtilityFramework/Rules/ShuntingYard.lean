import Mathlib.Data.List.TakeWhile
import UtilityFramework.Rules.Expression

/-!
# What the shunting yard accepts

`shuting_yards` puts the tokens into an order in which a stack machine can execute them.
This file says what it does without mentioning its stack: `Segment exec k ts s s'` follows
the structure of the token list (brackets, and binary operators by their priority, down to
operands and `!`), and says that the machine `exec` gets from `s` to `s'` on it.

The machine is arbitrary, so that the same statement can be used for the stack of nodes of
`build_parse_tree` and for the number of its elements. A segment need not leave one value
more than it finds, as an expression would: its operators may use values of the segments
before it. That is all that distinguishes the lists that are accepted from expressions.

* `shutingYardLoop_of_segment`: a segment is executed.
* `Pending` describes the stack in the middle of a list, by the segments that are complete,
  and `Pending.collapse` the effect of a token that takes operators off the stack.
* `shutingYards_iff`: the queue is executed from `s` to `s'` if and only if the list is a
  segment from `s` to `s'`.
-/

namespace UtilityFramework

/-! ### The loops of the shunting yard -/

section Loops

variable {token : Token} {tokens ts stack queue : List Token}

/-- The operators a token takes off the stack. -/
def Token.pops (token top : Token) : Bool :=
  decide (top.type ≠ .operatorLeftBraket ∧
    (top.type.getPriority > token.type.getPriority ∨
      token.type.isLeftAssoc ∧ top.type.getPriority = token.type.getPriority))

theorem popOperators_eq (token : Token) (stack queue : List Token) :
    popOperators token stack queue =
      (stack.dropWhile token.pops, queue ++ stack.takeWhile token.pops) := by
  induction stack generalizing queue with
  | nil => simp [popOperators]
  | cons top stack ih =>
    rw [popOperators]
    by_cases hleft : top.type = .operatorLeftBraket
    · simp [hleft, Token.pops]
    · rw [if_pos hleft]
      split
      · rename_i h
        have hpops : token.pops top = true := decide_eq_true ⟨hleft, h⟩
        rw [ih, List.dropWhile_cons_of_pos hpops, List.takeWhile_cons_of_pos hpops,
          List.append_assoc, List.singleton_append]
      · rename_i h
        have hpops : token.pops top = false := decide_eq_false fun h' => h h'.2
        rw [List.dropWhile_cons_of_neg (by simp [hpops]),
          List.takeWhile_cons_of_neg (by simp [hpops]), List.append_nil]

/-- Everything but a left bracket. -/
def Token.notLeft (top : Token) : Bool := decide (top.type ≠ .operatorLeftBraket)

theorem popToBraket_eq_ok {stack' queue' : List Token}
    (h : popToBraket stack queue = .ok (stack', queue')) :
    ∃ left, left.type = .operatorLeftBraket ∧ stack.dropWhile Token.notLeft = left :: stack' ∧
      queue' = queue ++ stack.takeWhile Token.notLeft := by
  induction stack generalizing queue with
  | nil => cases h
  | cons top stack ih =>
    rw [popToBraket] at h
    split at h
    · rename_i hleft
      have hnot : Token.notLeft top = true := decide_eq_true hleft
      obtain ⟨left, hl, hdrop, hqueue⟩ := ih h
      refine ⟨left, hl, by rwa [List.dropWhile_cons_of_pos hnot], ?_⟩
      rw [hqueue, List.takeWhile_cons_of_pos hnot, List.append_assoc, List.singleton_append]
    · rename_i hleft
      have hleft : top.type = .operatorLeftBraket := not_not.mp hleft
      have hnot : ¬Token.notLeft top = true := by simp [Token.notLeft, hleft]
      cases h
      exact ⟨top, hleft, List.dropWhile_cons_of_neg hnot,
        by rw [List.takeWhile_cons_of_neg hnot, List.append_nil]⟩

/-- Operators above a left bracket go to the queue. -/
theorem popToBraket_append {left : Token} (hleft : left.type = .operatorLeftBraket)
    (hts : ∀ t ∈ ts, t.type ≠ .operatorLeftBraket) (stack queue : List Token) :
    popToBraket (ts ++ left :: stack) queue = .ok (stack, queue ++ ts) := by
  induction ts generalizing queue with
  | nil => simp [popToBraket, hleft]
  | cons t ts ih =>
    have ht := hts t List.mem_cons_self
    rw [List.cons_append, popToBraket, if_pos ht,
      ih (fun x hx => hts x (List.mem_cons_of_mem t hx)), List.append_assoc,
      List.singleton_append]

theorem drainStack_eq_ok {queue' : List Token} (h : drainStack stack queue = .ok queue') :
    queue' = queue ++ stack ∧ ∀ t ∈ stack, t.type ≠ .operatorLeftBraket := by
  induction stack generalizing queue with
  | nil =>
    cases h
    simp
  | cons top stack ih =>
    rw [drainStack] at h
    split at h
    · cases h
    · rename_i hbraket
      obtain ⟨hqueue, hstack⟩ := ih h
      refine ⟨by rw [hqueue, List.append_assoc, List.singleton_append], ?_⟩
      exact List.forall_mem_cons.mpr ⟨fun hl => hbraket (.inl hl), hstack⟩

theorem drainStack_of_forall (h : ∀ t ∈ stack, t.type ≠ .operatorLeftBraket ∧
    t.type ≠ .operatorRightBraket) (queue : List Token) :
    drainStack stack queue = .ok (queue ++ stack) := by
  induction stack generalizing queue with
  | nil => rw [drainStack, List.append_nil]
  | cons top stack ih =>
    obtain ⟨htop, hstack⟩ := List.forall_mem_cons.mp h
    rw [drainStack, if_neg (not_or.mpr htop), ih hstack, List.append_assoc,
      List.singleton_append]

theorem shutingYardLoop_append (ts us stack queue : List Token) :
    shutingYardLoop (ts ++ us) stack queue =
      match shutingYardLoop ts stack queue with
      | .ok (stack, queue) => shutingYardLoop us stack queue
      | .error e => .error e := by
  induction ts generalizing stack queue with
  | nil => rfl
  | cons t ts ih =>
    rw [List.cons_append, shutingYardLoop, shutingYardLoop]
    cases shutingYard t stack queue with
    | error e => rfl
    | ok r => exact ih r.1 r.2

/-- The effect of an operator on the stack and the queue. -/
theorem shutingYard_operator
    (h : token.type.isBinary = true ∨ token.type = .operatorNot) :
    shutingYard token stack queue = .ok (token :: stack.dropWhile token.pops,
      queue ++ stack.takeWhile token.pops) := by
  rw [shutingYard, popOperators_eq]
  cases htype : token.type <;> simp_all [NodeType.isBinary]

theorem shutingYard_operand (h : token.type.isOperand = true) :
    shutingYard token stack queue = .ok (stack, queue ++ [token]) := by
  rw [shutingYard]
  cases htype : token.type <;> simp_all [NodeType.isOperand]

end Loops

/-! ### Segments -/

section Segments

variable {σ : Type*} {exec : Token → σ → Option σ} {token : Token}
  {ts us nots stack queue : List Token} {s s' s'' : σ} {k p : ℕ}

/-- Execute a list of tokens one after the other. -/
def runQueue (exec : Token → σ → Option σ) : List Token → σ → Option σ
  | [], s => some s
  | t :: queue, s => (exec t s).bind (runQueue exec queue)

theorem runQueue_append (q r : List Token) (s : σ) :
    runQueue exec (q ++ r) s = (runQueue exec q s).bind (runQueue exec r) := by
  induction q generalizing s with
  | nil => rfl
  | cons t q ih =>
    rw [List.cons_append, runQueue, runQueue, Option.bind_assoc]
    exact Option.bind_congr fun s' _ => ih s'

theorem runQueue_append_eq_some {q r : List Token} :
    runQueue exec (q ++ r) s = some s'' ↔
      ∃ s', runQueue exec q s = some s' ∧ runQueue exec r s' = some s'' := by
  rw [runQueue_append, Option.bind_eq_some_iff]

theorem runQueue_singleton : runQueue exec [token] s = exec token s := by
  rw [runQueue]
  cases exec token s <;> rfl

/-- The two shapes of a piece of a token list: operands, groups in brackets and `!` without
a binary operator between them, where the `!` (the last one first) are still to be
executed; or operators of a priority of at least `k` with what stands between them. -/
inductive Shape
  | units (nots : List Token)
  | level (k : ℕ)

/-- A piece of a token list on which the machine gets from one state to another. -/
inductive Piece (exec : Token → σ → Option σ) : Shape → List Token → σ → σ → Prop
  | nil (s : σ) : Piece exec (.units []) [] s s
  | operand {nots ts : List Token} {s s' s'' : σ} {t : Token}
    (h : Piece exec (.units nots) ts s s') (ht : t.type.isOperand = true)
    (he : exec t s' = some s'') : Piece exec (.units nots) (ts ++ [t]) s s''
  | not {nots ts : List Token} {s s' : σ} {t : Token}
    (h : Piece exec (.units nots) ts s s') (ht : t.type = .operatorNot) :
    Piece exec (.units (t :: nots)) (ts ++ [t]) s s'
  | skip {nots ts : List Token} {s s' : σ} {t : Token}
    (h : Piece exec (.units nots) ts s s') (ht : t.type = .operandNone) :
    Piece exec (.units nots) (ts ++ [t]) s s'
  | group {nots ts us : List Token} {s s' s'' : σ} {l r : Token}
    (h : Piece exec (.units nots) ts s s') (hl : l.type = .operatorLeftBraket)
    (hus : Piece exec (.level 0) us s' s'') (hr : r.type = .operatorRightBraket) :
    Piece exec (.units nots) (ts ++ (l :: us ++ [r])) s s''
  | units {nots ts : List Token} {s s' s'' : σ} (h : Piece exec (.units nots) ts s s')
    (he : runQueue exec nots s' = some s'') : Piece exec (.level 5) ts s s''
  | binary {ts us : List Token} {s s₁ s₂ s₃ : σ} {t : Token} (ht : t.type.isBinary = true)
    (hl : Piece exec (.level t.type.getPriority) ts s s₁)
    (hr : Piece exec (.level (t.type.getPriority + 1)) us s₁ s₂) (he : exec t s₂ = some s₃) :
    Piece exec (.level t.type.getPriority) (ts ++ t :: us) s s₃
  | up {k : ℕ} {ts : List Token} {s s' : σ} (h : Piece exec (.level (k + 1)) ts s s') :
    Piece exec (.level k) ts s s'

/-- A piece that is complete. -/
abbrev Segment (exec : Token → σ → Option σ) (k : ℕ) : List Token → σ → σ → Prop :=
  Piece exec (.level k)

theorem Segment.of_le (h : Segment exec k ts s s') (hp : p ≤ k) : Segment exec p ts s s' := by
  induction k with
  | zero => exact Nat.le_zero.mp hp ▸ h
  | succ k ih =>
    rcases Nat.lt_or_eq_of_le hp with hlt | rfl
    · exact ih (.up h) (Nat.lt_succ_iff.mp hlt)
    · exact h

/-- An operator of priority `k` finds nothing to take off the stack. -/
def Below (k : ℕ) (stack : List Token) : Prop :=
  ∀ top ∈ stack.head?, top.type = .operatorLeftBraket ∨ top.type.getPriority < k

/-- An operator of priority at least `k`, not a bracket. -/
def Token.AtLeast (k : ℕ) (t : Token) : Prop :=
  t.type ≠ .operatorLeftBraket ∧ t.type ≠ .operatorRightBraket ∧ k ≤ t.type.getPriority

theorem Token.AtLeast.of_not (h : token.type = .operatorNot) : token.AtLeast 5 := by
  rw [AtLeast, h]
  decide

theorem Token.AtLeast.of_binary (h : token.type.isBinary = true) :
    token.AtLeast token.type.getPriority := by
  refine ⟨?_, ?_, Nat.le_refl _⟩ <;> intro heq <;> rw [heq] at h <;> cases h

theorem Token.AtLeast.of_le (h : token.AtLeast k) (hp : p ≤ k) : token.AtLeast p :=
  ⟨h.1, h.2.1, Nat.le_trans hp h.2.2⟩

theorem isLeftAssoc_of_isBinary (h : token.type.isBinary = true) :
    token.type.isLeftAssoc = true := by
  cases htype : token.type <;> simp_all [NodeType.isBinary, NodeType.isLeftAssoc]

/-- A binary operator takes off what binds at least as tight. -/
theorem pops_iff_of_isBinary (h : token.type.isBinary = true) (top : Token) :
    token.pops top = true ↔ top.type ≠ .operatorLeftBraket ∧
      token.type.getPriority ≤ top.type.getPriority := by
  rw [Token.pops, decide_eq_true_iff, isLeftAssoc_of_isBinary h]
  constructor
  · rintro ⟨hl, hp | ⟨-, hp⟩⟩
    · exact ⟨hl, Nat.le_of_lt hp⟩
    · exact ⟨hl, Nat.le_of_eq hp.symm⟩
  · rintro ⟨hl, hp⟩
    rcases Nat.lt_or_eq_of_le hp with hlt | heq
    · exact ⟨hl, .inl hlt⟩
    · exact ⟨hl, .inr ⟨rfl, heq.symm⟩⟩

/-- `!` takes nothing off: no priority is higher, and it is not left associative. -/
theorem pops_of_not (h : token.type = .operatorNot) (top : Token) :
    token.pops top = false := by
  rw [Token.pops, h]
  cases top.type <;> decide

theorem dropWhile_of_head {P : Token → Bool} (stack : List Token)
    (hP : ∀ top ∈ stack.head?, P top = false) :
    stack.dropWhile P = stack ∧ stack.takeWhile P = [] := by
  cases stack with
  | nil => exact ⟨rfl, rfl⟩
  | cons top stack =>
    have htop : ¬P top = true := by simp [hP top rfl]
    exact ⟨List.dropWhile_cons_of_neg htop, List.takeWhile_cons_of_neg htop⟩

/-- `!` goes on the stack. -/
theorem shutingYard_not (h : token.type = .operatorNot) :
    shutingYard token stack queue = .ok (token :: stack, queue) := by
  obtain ⟨hdrop, htake⟩ := dropWhile_of_head stack fun top _ => pops_of_not h top
  rw [shutingYard_operator (.inr h), hdrop, htake, List.append_nil]

/-- A binary operator above a segment takes off the operators of the segment. -/
theorem shutingYard_binary (h : token.type.isBinary = true)
    (hts : ∀ t ∈ ts, t.AtLeast token.type.getPriority)
    (hstack : Below token.type.getPriority stack) :
    shutingYard token (ts ++ stack) queue = .ok (token :: stack, queue ++ ts) := by
  have hpos : ∀ t ∈ ts, token.pops t = true := fun t ht =>
    (pops_iff_of_isBinary h t).mpr ⟨(hts t ht).1, (hts t ht).2.2⟩
  have hneg : ∀ top ∈ stack.head?, token.pops top = false := fun top htop => by
    rw [Bool.eq_false_iff, ne_eq, pops_iff_of_isBinary h]
    rintro ⟨hl, hp⟩
    rcases hstack top htop with h | h
    · exact hl h
    · omega
  obtain ⟨hdrop, htake⟩ := dropWhile_of_head stack hneg
  rw [shutingYard_operator (.inl h), List.dropWhile_append_of_pos hpos,
    List.takeWhile_append_of_pos hpos, hdrop, htake, List.append_nil]

/-- The operators `above` the former stack and the tokens `q` appended to the queue after a
piece: with the operators still to come, the machine gets from `s` to `s'`. -/
def Shape.Ran (exec : Token → σ → Option σ) (above q : List Token) (s s' : σ) : Shape → Prop
  | .units nots => nots = above ∧ runQueue exec q s = some s' ∧ ∀ t ∈ nots, t.AtLeast 5
  | .level k => runQueue exec (q ++ above) s = some s' ∧ ∀ t ∈ above, t.AtLeast k

/-- What the loop does on a piece: its operands and the operators that are complete are
appended to the queue, and the rest stay above the stack as it was. -/
theorem Piece.run {shape : Shape} (h : Piece exec shape ts s s') (stack queue : List Token)
    (hstack : ∀ k, shape = .level k → Below k stack) :
    ∃ above q, shutingYardLoop ts stack queue = .ok (above ++ stack, queue ++ q) ∧
      shape.Ran exec above q s s' := by
  induction h generalizing stack queue with
  | nil s => exact ⟨[], [], by simp [shutingYardLoop], rfl, rfl, by simp⟩
  | @operand nots ts s s' s'' t _ ht he ih =>
    obtain ⟨_, q, hloop, rfl, hrun, hnots⟩ := ih stack queue fun k hk => by cases hk
    refine ⟨_, q ++ [t], ?_, rfl, ?_, hnots⟩
    · rw [shutingYardLoop_append, hloop]
      simp only [shutingYardLoop, shutingYard_operand ht, List.append_assoc]
    · exact runQueue_append_eq_some.mpr ⟨s', hrun, by rw [runQueue_singleton, he]⟩
  | @not nots ts s s' t _ ht ih =>
    obtain ⟨_, q, hloop, rfl, hrun, hnots⟩ := ih stack queue fun k hk => by cases hk
    refine ⟨_, q, ?_, rfl, hrun, List.forall_mem_cons.mpr ⟨.of_not ht, hnots⟩⟩
    rw [shutingYardLoop_append, hloop]
    simp only [shutingYardLoop, shutingYard_not ht, List.cons_append]
  | @skip nots ts s s' t _ ht ih =>
    obtain ⟨_, q, hloop, rfl, hrun, hnots⟩ := ih stack queue fun k hk => by cases hk
    refine ⟨_, q, ?_, rfl, hrun, hnots⟩
    rw [shutingYardLoop_append, hloop]
    simp only [shutingYardLoop, shutingYard, ht]
  | @group nots ts us s s' s'' l r _ hl _ hr ih ihus =>
    obtain ⟨_, q, hloop, rfl, hrun, hnots⟩ := ih stack queue fun k hk => by cases hk
    have hbelow : Below 0 (l :: (nots ++ stack)) := fun top htop => by
      obtain rfl := Option.some.inj htop
      exact .inl hl
    obtain ⟨above, q', hloop', hrun', habove⟩ := ihus (l :: (nots ++ stack)) (queue ++ q)
      fun k hk => by cases hk; exact hbelow
    refine ⟨_, q ++ (q' ++ above), ?_, rfl, ?_, hnots⟩
    · have hright : shutingYard r (above ++ l :: (nots ++ stack)) (queue ++ q ++ q') =
          .ok (nots ++ stack, queue ++ q ++ q' ++ above) := by
        rw [shutingYard, hr]
        exact popToBraket_append hl (fun t ht => (habove t ht).1) _ _
      rw [shutingYardLoop_append, hloop]
      simp only [List.cons_append, shutingYardLoop, shutingYard, hl]
      rw [shutingYardLoop_append, hloop']
      simp only [shutingYardLoop, hright]
      simp only [List.append_assoc]
    · exact runQueue_append_eq_some.mpr ⟨s', hrun, hrun'⟩
  | @units nots ts s s' s'' _ he ih =>
    obtain ⟨_, q, hloop, rfl, hrun, hnots⟩ := ih stack queue fun k hk => by cases hk
    exact ⟨_, q, hloop, runQueue_append_eq_some.mpr ⟨s', hrun, he⟩, hnots⟩
  | @binary ts us s s₁ s₂ s₃ t ht _ _ he ihl ihr =>
    have hbelow := hstack _ rfl
    obtain ⟨above, q, hloop, hrun, habove⟩ := ihl stack queue fun k hk => by
      cases hk; exact hbelow
    have hbelow' : Below (t.type.getPriority + 1) (t :: stack) := fun top htop => by
      obtain rfl := Option.some.inj htop
      exact .inr (Nat.lt_succ_self _)
    obtain ⟨above', q', hloop', hrun', habove'⟩ := ihr (t :: stack) (queue ++ (q ++ above))
      fun k hk => by cases hk; exact hbelow'
    refine ⟨above' ++ [t], q ++ above ++ q', ?_, ?_, ?_⟩
    · rw [shutingYardLoop_append, hloop]
      simp only [shutingYardLoop, shutingYard_binary ht habove hbelow]
      rw [List.append_assoc, hloop']
      simp only [List.append_assoc, List.singleton_append]
    · rw [List.append_assoc, ← List.append_assoc q']
      exact runQueue_append_eq_some.mpr ⟨s₁, hrun,
        runQueue_append_eq_some.mpr ⟨s₂, hrun', by rw [runQueue_singleton, he]⟩⟩
    · intro x hx
      rcases List.mem_append.mp hx with hx | hx
      · exact (habove' x hx).of_le (Nat.le_succ _)
      · obtain rfl := List.mem_singleton.mp hx
        exact .of_binary ht
  | @up k ts s s' _ ih =>
    have hbelow := hstack k rfl
    obtain ⟨above, q, hloop, hrun, habove⟩ := ih stack queue fun k' hk => by
      cases hk
      exact fun top htop => (hbelow top htop).imp_right Nat.lt_succ_of_lt
    exact ⟨above, q, hloop, hrun, fun t ht => (habove t ht).of_le (Nat.le_succ k)⟩

/-- A segment is put in an order in which it is executed. -/
theorem shutingYards_of_segment (h : Segment exec 0 ts s s') (hne : ts ≠ []) :
    ∃ queue, shutingYards ts = .ok queue ∧ runQueue exec queue s = some s' := by
  obtain ⟨above, q, hloop, hrun, habove⟩ := h.run [] [] fun k _ top htop => by cases htop
  refine ⟨q ++ above, ?_, hrun⟩
  rw [shutingYards, if_neg hne, hloop]
  simp only [List.append_nil, List.nil_append]
  exact drainStack_of_forall (fun t ht => ⟨(habove t ht).1, (habove t ht).2.1⟩) q

/-! ### From the stack to segments -/

/-- The tokens up to the last operator or bracket that is still on the stack: between those
on the stack there are complete segments. -/
inductive Pending (exec : Token → σ → Option σ) (s₀ : σ) : List Token → List Token → σ → Prop
  | start : Pending exec s₀ [] [] s₀
  | binary {ts us stack : List Token} {s s' : σ} {t : Token} (h : Pending exec s₀ ts stack s)
    (ht : t.type.isBinary = true) (hus : Segment exec t.type.getPriority us s s')
    (hstack : Below t.type.getPriority stack) :
    Pending exec s₀ (ts ++ (us ++ [t])) (t :: stack) s'
  | left {ts us nots stack : List Token} {s s' : σ} {l : Token}
    (h : Pending exec s₀ ts stack s) (hus : Piece exec (.units nots) us s s')
    (hl : l.type = .operatorLeftBraket) :
    Pending exec s₀ (ts ++ (us ++ [l])) (l :: (nots ++ stack)) s'

/-- The tokens `ts` have led to this stack and this queue: after those that are pending
comes a piece without a binary operator. -/
def Reached (exec : Token → σ → Option σ) (s₀ : σ) (ts stack queue : List Token) : Prop :=
  ∃ ts₀ us nots stack₀ s s', ts = ts₀ ++ us ∧ stack = nots ++ stack₀ ∧
    Pending exec s₀ ts₀ stack₀ s ∧ Piece exec (.units nots) us s s' ∧
    runQueue exec queue s₀ = some s'

variable {s₀ : σ} {P : Token → Bool}

/-- Taking operators of a priority of at least `p` off the stack completes a segment of
that level. `k` is the level of the segment above them, and falls as they are taken off. -/
theorem Pending.collapse (h : Pending exec s₀ ts stack s)
    (hP : ∀ t, t.type.isBinary = true → (P t = true ↔ p ≤ t.type.getPriority))
    (hleft : ∀ t, t.type = .operatorLeftBraket → P t = false)
    (hus : Segment exec k us s s') (hbelow : Below k stack) (hpk : p ≤ k)
    (hrun : runQueue exec (stack.takeWhile P) s' = some s'') :
    ∃ ts' us' s₁, ts ++ us = ts' ++ us' ∧ Pending exec s₀ ts' (stack.dropWhile P) s₁ ∧
      Segment exec p us' s₁ s'' ∧ Below p (stack.dropWhile P) := by
  induction h generalizing k us s' with
  | start =>
    cases hrun
    exact ⟨[], us, s₀, rfl, .start, hus.of_le hpk, fun top htop => by cases htop⟩
  | @binary ts vs stack s s₁ t h ht hvs hstack ih =>
    by_cases hp : p ≤ t.type.getPriority
    · -- `t` is taken off, and joins the segments on its two sides
      have hPt : P t = true := (hP t ht).mpr hp
      rw [List.takeWhile_cons_of_pos hPt, runQueue, Option.bind_eq_some_iff] at hrun
      obtain ⟨s₂, he, hrun⟩ := hrun
      have hlt : t.type.getPriority < k := (hbelow t rfl).resolve_left fun hl => by
        rw [hl] at ht
        cases ht
      obtain ⟨ts', us', s₃, heq, hpending, hsegment, hbelow'⟩ :=
        ih (.binary ht hvs (hus.of_le hlt) he) hstack hp hrun
      rw [List.dropWhile_cons_of_pos hPt]
      refine ⟨ts', us', s₃, ?_, hpending, hsegment, hbelow'⟩
      rw [← heq]
      simp
    · have hPt : ¬P t = true := fun hPt => hp ((hP t ht).mp hPt)
      rw [List.takeWhile_cons_of_neg hPt] at hrun
      cases hrun
      rw [List.dropWhile_cons_of_neg hPt]
      refine ⟨_, us, s₁, rfl, .binary h ht hvs hstack, hus.of_le hpk, fun top htop => ?_⟩
      obtain rfl := Option.some.inj htop
      exact .inr (Nat.lt_of_not_le hp)
  | @left ts vs nots stack s s₁ l h hvs hl ih =>
    have hPl : ¬P l = true := by simp [hleft l hl]
    rw [List.takeWhile_cons_of_neg hPl] at hrun
    cases hrun
    rw [List.dropWhile_cons_of_neg hPl]
    refine ⟨_, us, s₁, rfl, .left h hvs hl, hus.of_le hpk, fun top htop => ?_⟩
    obtain rfl := Option.some.inj htop
    exact .inl hl

theorem getPriority_lt_of_isBinary (h : token.type.isBinary = true) :
    token.type.getPriority < 5 := by
  cases htype : token.type <;> simp_all [NodeType.isBinary, NodeType.getPriority]

theorem Pending.below_five (h : Pending exec s₀ ts stack s) : Below 5 stack := by
  intro top htop
  cases h with
  | start => cases htop
  | binary h ht =>
    obtain rfl := Option.some.inj htop
    exact .inr (getPriority_lt_of_isBinary ht)
  | left h hus hl =>
    obtain rfl := Option.some.inj htop
    exact .inl hl

theorem Piece.nots_type {shape : Shape} (h : Piece exec shape ts s s') :
    ∀ nots, shape = .units nots → ∀ t ∈ nots, t.type = .operatorNot := by
  induction h with
  | not h ht ih =>
    intro nots hn
    cases hn
    exact List.forall_mem_cons.mpr ⟨ht, ih _ rfl⟩
  | nil => intro nots hn; cases hn; simp
  | operand _ _ _ ih => exact ih
  | skip _ _ ih => exact ih
  | group _ _ _ _ ih => exact ih
  | units => intro nots hn; cases hn
  | binary => intro nots hn; cases hn
  | up => intro nots hn; cases hn

/-- Taking operators off the stack in the middle of a list. -/
theorem Reached.collapse (h : Reached exec s₀ ts stack queue)
    (hP : ∀ t, t.type.isBinary = true → (P t = true ↔ p ≤ t.type.getPriority))
    (hleft : ∀ t, t.type = .operatorLeftBraket → P t = false)
    (hnot : ∀ t, t.type = .operatorNot → P t = true) (hp : p ≤ 5)
    (hrun : runQueue exec (queue ++ stack.takeWhile P) s₀ = some s'') :
    ∃ ts' us' s₁, ts = ts' ++ us' ∧ Pending exec s₀ ts' (stack.dropWhile P) s₁ ∧
      Segment exec p us' s₁ s'' ∧ Below p (stack.dropWhile P) := by
  obtain ⟨ts₀, us, nots, stack₀, s, s', rfl, rfl, hpending, hus, hqueue⟩ := h
  have hnots : ∀ t ∈ nots, P t = true := fun t ht => hnot t (hus.nots_type nots rfl t ht)
  rw [List.takeWhile_append_of_pos hnots] at hrun
  obtain ⟨s₁, hs₁, hrun⟩ := runQueue_append_eq_some.mp hrun
  rw [hqueue] at hs₁
  obtain rfl := Option.some.inj hs₁
  obtain ⟨s₂, hs₂, hrun⟩ := runQueue_append_eq_some.mp hrun
  rw [List.dropWhile_append_of_pos hnots]
  exact hpending.collapse hP hleft (.units hus hs₂) hpending.below_five hp hrun

/-- Taking everything above a left bracket off the stack. -/
theorem Reached.collapse_notLeft (h : Reached exec s₀ ts stack queue)
    (hrun : runQueue exec (queue ++ stack.takeWhile Token.notLeft) s₀ = some s'') :
    ∃ ts' us' s₁, ts = ts' ++ us' ∧
      Pending exec s₀ ts' (stack.dropWhile Token.notLeft) s₁ ∧ Segment exec 0 us' s₁ s'' := by
  have hP (t : Token) (hb : t.type.isBinary = true) :
      Token.notLeft t = true ↔ 0 ≤ t.type.getPriority := by
    refine iff_of_true ?_ (Nat.zero_le _)
    exact decide_eq_true (Token.AtLeast.of_binary hb).1
  have hleft (t : Token) (hl : t.type = .operatorLeftBraket) : Token.notLeft t = false := by
    simp [Token.notLeft, hl]
  have hnot (t : Token) (hn : t.type = .operatorNot) : Token.notLeft t = true := by
    simp [Token.notLeft, hn]
  obtain ⟨ts', us', s₁, hts, hpending, hsegment, -⟩ := h.collapse hP hleft hnot
    (Nat.zero_le 5) hrun
  exact ⟨ts', us', s₁, hts, hpending, hsegment⟩

theorem Reached.nil (exec : Token → σ → Option σ) (s₀ : σ) : Reached exec s₀ [] [] [] :=
  ⟨[], [], [], [], s₀, s₀, rfl, rfl, .start, .nil s₀, rfl⟩

/-- A binary operator completes the segment before it, and becomes pending. -/
theorem Reached.binary (h : Reached exec s₀ ts stack queue) (ht : token.type.isBinary = true)
    (hrun : runQueue exec (queue ++ stack.takeWhile token.pops) s₀ = some s') :
    Reached exec s₀ (ts ++ [token]) (token :: stack.dropWhile token.pops)
      (queue ++ stack.takeWhile token.pops) := by
  have hP (t : Token) (hb : t.type.isBinary = true) :
      token.pops t = true ↔ token.type.getPriority ≤ t.type.getPriority := by
    rw [pops_iff_of_isBinary ht]
    exact and_iff_right (Token.AtLeast.of_binary hb).1
  have hleft (t : Token) (hl : t.type = .operatorLeftBraket) : token.pops t = false := by
    simp [Token.pops, hl]
  have hnot (t : Token) (hn : t.type = .operatorNot) : token.pops t = true := by
    rw [pops_iff_of_isBinary ht, hn]
    exact ⟨by decide, Nat.le_of_lt (getPriority_lt_of_isBinary ht)⟩
  obtain ⟨ts', us', s₁, rfl, hpending, hsegment, hbelow⟩ := h.collapse hP hleft hnot
    (Nat.le_of_lt (getPriority_lt_of_isBinary ht)) hrun
  refine ⟨ts' ++ (us' ++ [token]), [], [], _, s', s', by simp, rfl,
    .binary hpending ht hsegment hbelow, .nil s', hrun⟩

/-- A right bracket completes the segment before it, which with its brackets joins the piece
before the left bracket. -/
theorem Reached.right (h : Reached exec s₀ ts stack queue)
    (hr : token.type = .operatorRightBraket) {left : Token} {stack' : List Token}
    (hl : left.type = .operatorLeftBraket)
    (hdrop : stack.dropWhile Token.notLeft = left :: stack')
    (hrun : runQueue exec (queue ++ stack.takeWhile Token.notLeft) s₀ = some s') :
    Reached exec s₀ (ts ++ [token]) stack' (queue ++ stack.takeWhile Token.notLeft) := by
  obtain ⟨ts', us', s₁, rfl, hpending, hsegment⟩ := h.collapse_notLeft hrun
  rw [hdrop] at hpending
  cases hpending with
  | binary _ ht =>
    rw [hl] at ht
    cases ht
  | @left ts₀ us nots stack₀ s _ _ hpending hus _ =>
    exact ⟨ts₀, us ++ (left :: us' ++ [token]), nots, stack₀, s, s', by simp, rfl, hpending,
      .group hus hl hsegment hr, hrun⟩

/-- One token, as long as the queue can be executed. -/
theorem Reached.step (h : Reached exec s₀ ts stack queue) {stack' queue' : List Token}
    (hstep : shutingYard token stack queue = .ok (stack', queue'))
    (hrun : runQueue exec queue' s₀ = some s') :
    Reached exec s₀ (ts ++ [token]) stack' queue' := by
  by_cases hb : token.type.isBinary = true
  · rw [shutingYard_operator (.inl hb)] at hstep
    cases hstep
    exact h.binary hb hrun
  by_cases hr : token.type = .operatorRightBraket
  · rw [shutingYard, hr] at hstep
    obtain ⟨left, hl, hdrop, rfl⟩ := popToBraket_eq_ok hstep
    exact h.right hr hl hdrop hrun
  obtain ⟨ts₀, us, nots, stack₀, s, s₁, rfl, rfl, hpending, hus, hqueue⟩ := h
  by_cases ho : token.type.isOperand = true
  · rw [shutingYard_operand ho] at hstep
    cases hstep
    obtain ⟨s₂, hs₂, he⟩ := runQueue_append_eq_some.mp hrun
    rw [hqueue] at hs₂
    cases hs₂
    rw [runQueue_singleton] at he
    exact ⟨ts₀, us ++ [token], nots, stack₀, s, s', by simp, rfl, hpending,
      .operand hus ho he, hrun⟩
  by_cases hn : token.type = .operatorNot
  · rw [shutingYard_not hn] at hstep
    cases hstep
    exact ⟨ts₀, us ++ [token], token :: nots, stack₀, s, s₁, by simp, rfl, hpending,
      .not hus hn, hqueue⟩
  by_cases hl : token.type = .operatorLeftBraket
  · rw [shutingYard, hl] at hstep
    cases hstep
    exact ⟨ts₀ ++ (us ++ [token]), [], [], token :: (nots ++ stack₀), s₁, s₁, by simp, rfl,
      .left hpending hus hl, .nil s₁, hqueue⟩
  · have hnone : token.type = .operandNone := by
      cases htype : token.type <;> simp_all [NodeType.isBinary, NodeType.isOperand]
    rw [shutingYard, hnone] at hstep
    cases hstep
    exact ⟨ts₀, us ++ [token], nots, stack₀, s, s₁, by simp, rfl, hpending,
      .skip hus hnone, hqueue⟩

/-- The queue only grows. -/
theorem shutingYard_queue {stack' queue' : List Token}
    (h : shutingYard token stack queue = .ok (stack', queue')) : ∃ q, queue' = queue ++ q := by
  by_cases hr : token.type = .operatorRightBraket
  · rw [shutingYard, hr] at h
    obtain ⟨-, -, -, rfl⟩ := popToBraket_eq_ok h
    exact ⟨_, rfl⟩
  by_cases ho : token.type.isBinary = true ∨ token.type = .operatorNot
  · rw [shutingYard_operator ho] at h
    cases h
    exact ⟨_, rfl⟩
  · rw [shutingYard] at h
    cases htype : token.type <;> simp_all [NodeType.isBinary]
    all_goals exact ⟨_, h.2.symm⟩

theorem shutingYardLoop_queue {us stack' queue' : List Token}
    (h : shutingYardLoop us stack queue = .ok (stack', queue')) :
    ∃ q, queue' = queue ++ q := by
  induction us generalizing stack queue with
  | nil =>
    cases h
    exact ⟨[], (List.append_nil _).symm⟩
  | cons t us ih =>
    rw [shutingYardLoop] at h
    split at h
    · rename_i stack₁ queue₁ hstep
      obtain ⟨q, rfl⟩ := shutingYard_queue hstep
      obtain ⟨q', rfl⟩ := ih h
      exact ⟨q ++ q', List.append_assoc _ _ _⟩
    · cases h

/-- The whole list. -/
theorem Reached.run (h : Reached exec s₀ ts stack queue) {us stack' queue' : List Token}
    (hloop : shutingYardLoop us stack queue = .ok (stack', queue'))
    (hrun : runQueue exec queue' s₀ = some s') :
    Reached exec s₀ (ts ++ us) stack' queue' := by
  induction us generalizing ts stack queue with
  | nil =>
    cases hloop
    rwa [List.append_nil]
  | cons t us ih =>
    rw [shutingYardLoop] at hloop
    split at hloop
    · rename_i stack₁ queue₁ hstep
      obtain ⟨q, rfl⟩ := shutingYardLoop_queue hloop
      obtain ⟨s₁, hs₁, -⟩ := runQueue_append_eq_some.mp hrun
      rw [List.append_cons]
      exact ih (h.step hstep hs₁) hloop
    · cases hloop

/-- **What the shunting yard accepts.** A list is put in an order that is executed from `s`
to `s'` exactly if it is a segment from `s` to `s'`. -/
theorem shutingYards_iff (exec : Token → σ → Option σ) (ts : List Token) (s s' : σ) :
    (∃ queue, shutingYards ts = .ok queue ∧ runQueue exec queue s = some s') ↔
      ts ≠ [] ∧ Segment exec 0 ts s s' := by
  constructor
  · rintro ⟨queue, hyards, hrun⟩
    rw [shutingYards] at hyards
    split at hyards
    · cases hyards
    rename_i hne
    split at hyards
    · rename_i stack queue₀ hloop
      obtain ⟨rfl, hstack⟩ := drainStack_eq_ok hyards
      obtain ⟨s₁, hs₁, -⟩ := runQueue_append_eq_some.mp hrun
      have hreached := (Reached.nil exec s).run hloop hs₁
      have hall : ∀ t ∈ stack, Token.notLeft t = true := fun t ht =>
        decide_eq_true (hstack t ht)
      rw [List.nil_append] at hreached
      rw [← List.takeWhile_eq_self_iff.mpr hall] at hrun
      obtain ⟨ts', us', s₂, rfl, hpending, hsegment⟩ := hreached.collapse_notLeft hrun
      rw [List.dropWhile_eq_nil_iff.mpr hall] at hpending
      cases hpending
      exact ⟨hne, hsegment⟩
    · cases hyards
  · rintro ⟨hne, h⟩
    exact shutingYards_of_segment h hne

end Segments

end UtilityFramework
