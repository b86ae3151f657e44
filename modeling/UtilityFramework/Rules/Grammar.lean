import UtilityFramework.Rules.ShuntingYard

/-!
# The grammar of rule expressions

The expressions the rules are written in: operands, the binary operators `||`, `&&` and the
comparisons, in order of increasing strength and all left associative, then `!`, and
brackets. `Derives n ts e` says that the tokens `ts` spell the expression `e`, which may
stand where something of level `n` is asked for; `Expr.value` is what `e` means.

* `Derives.buildParseTree_eq`: for every expression a tree is built, which evaluates to the
  value of the expression.
* `buildParseTree_isOk_iff`: exactly when a tree is built. The test is on the number of values
  an operator finds, which may come from anywhere before it, so that lists are accepted that
  spell no expression.
-/

namespace UtilityFramework

/-! ### Expressions and their meaning -/

/-- The operator a token stands for. -/
def NodeType.meaning : NodeType → Option Operator
  | operatorEqual => some .equal
  | operatorNotEqual => some .notEqual
  | operatorLt => some .lessThan
  | operatorLte => some .lessThanEqual
  | operatorGt => some .greaterThan
  | operatorGte => some .greaterThanEqual
  | operatorAnd => some .and
  | operatorOr => some .or
  | _ => none

/-- An expression. -/
inductive Expr
  | operand (t : Token)
  | binary (op : Operator) (left right : Expr)
  | not (e : Expr)

/-- How tight a binary operator binds. -/
def Operator.level : Operator → ℕ
  | .or => 0
  | .and => 1
  | _ => 2

/-- The grammar. Level `3` is that of `!`, level `4` that of operands and brackets. -/
inductive Derives : ℕ → List Token → Expr → Prop
  | operand {t : Token} (ht : t.type.isOperand = true) : Derives 4 [t] (.operand t)
  | brakets {l r : Token} {ts : List Token} {e : Expr} (hl : l.type = .operatorLeftBraket)
    (h : Derives 0 ts e) (hr : r.type = .operatorRightBraket) : Derives 4 (l :: ts ++ [r]) e
  | not {t : Token} {ts : List Token} {e : Expr} (ht : t.type = .operatorNot)
    (h : Derives 3 ts e) : Derives 3 (t :: ts) (.not e)
  | binary {t : Token} {op : Operator} {ts us : List Token} {a b : Expr}
    (ht : t.type.meaning = some op) (ha : Derives op.level ts a)
    (hb : Derives (op.level + 1) us b) : Derives op.level (ts ++ t :: us) (.binary op a b)
  | up {n : ℕ} {ts : List Token} {e : Expr} (h : Derives (n + 1) ts e) : Derives n ts e

section Meaning

variable {V : Type*} [DoubleOps V]

open DoubleOps

/-- A value counts as true if it is not zero. -/
def truth (a : V) : Bool := !eq a zero

/-- The usual meaning of the operators. -/
def Operator.holds (op : Operator) (a b : V) : Bool :=
  match op with
  | .equal => eq a b
  | .notEqual => !eq a b
  | .lessThan => lt a b
  | .lessThanEqual => lt a b || eq a b
  | .greaterThan => lt b a
  | .greaterThanEqual => lt b a || eq b a
  | .and => truth a && truth b
  | .or => truth a || truth b

/-- The value of an expression, given the values of its operands. -/
def Expr.value (ν : Token → V) : Expr → V
  | .operand t => ν t
  | .binary op a b => ofBool (op.holds (a.value ν) (b.value ν))
  | .not e => ofBool (!truth (e.value ν))

/-- An operator node computes the usual meaning of its operator. -/
theorem Operator.evaluate_some (op : Operator) (a b : V) :
    op.evaluate (some a) (some b) = some (ofBool (op.holds a b)) := by
  cases op with
  | and => cases h : eq a zero <;> simp [evaluate, shortCut, apply, holds, truth, ne, h]
  | or => cases h : eq a zero <;> simp [evaluate, shortCut, apply, holds, truth, ne, h]
  | lessThanEqual => simp [evaluate, shortCut, apply, holds, le_eq]
  | greaterThanEqual => simp [evaluate, shortCut, apply, holds, ge, le_eq]
  | _ => rfl

end Meaning

/-! ### Trees of expressions -/

section Trees

variable {V F : Type*} {env : OperandSource V F} {ts us queue nots : List Token}
  {s s' s'' : List (ExpressionNode V F)} {n : ℕ} {e : Expr}

/-- One token of the queue, on the stack of nodes. -/
def nodeExec (env : OperandSource V F) (t : Token) (s : List (ExpressionNode V F)) :
    Option (List (ExpressionNode V F)) :=
  (buildNode env t s).toOption

theorem runQueue_nodeExec (queue : List Token) (s : List (ExpressionNode V F)) :
    runQueue (nodeExec env) queue s = (buildNodes env queue s).toOption := by
  induction queue generalizing s with
  | nil => rfl
  | cons t queue ih =>
    rw [runQueue, buildNodes, nodeExec]
    cases buildNode env t s with
    | error err => rfl
    | ok s' => exact ih s'

/-- The tree of an expression, with the nodes of its operands. -/
def Expr.tree (mk : Token → ExpressionNode V F) : Expr → ExpressionNode V F
  | .operand t => mk t
  | .binary op a b => .operator op (a.tree mk) (b.tree mk)
  | .not e => .operatorNot (e.tree mk)

theorem nodeExec_operand {t : Token} {node : ExpressionNode V F} (ht : t.type.isOperand = true)
    (hmk : env.makeOperand t = .ok node) : nodeExec env t s = some (node :: s) := by
  unfold nodeExec buildNode
  cases htype : t.type <;> simp_all [NodeType.isOperand, Except.toOption]

theorem nodeExec_not {t : Token} {node : ExpressionNode V F} (ht : t.type = .operatorNot) :
    nodeExec env t (node :: s) = some (.operatorNot node :: s) := by
  unfold nodeExec buildNode
  rw [ht]
  rfl

theorem nodeExec_binary {t : Token} {op : Operator} {left right : ExpressionNode V F}
    (ht : t.type.meaning = some op) :
    nodeExec env t (right :: left :: s) = some (.operator op left right :: s) := by
  unfold nodeExec buildNode
  cases htype : t.type <;> simp_all [NodeType.meaning, makeOperator, Except.toOption]

theorem isBinary_of_meaning {t : NodeType} {op : Operator} (h : t.meaning = some op) :
    t.isBinary = true ∧ t.getPriority = op.level + 2 := by
  cases t <;> simp_all [NodeType.meaning, NodeType.isBinary] <;> subst h <;> rfl

/-- Two pieces without a binary operator between them are one. -/
theorem Piece.append_units {σ : Type*} {exec : Token → σ → Option σ} {shape : Shape}
    {nots₀ : List Token} {r r' r'' : σ} (h : Piece exec (.units nots₀) ts r r')
    (h' : Piece exec shape us r' r'') (nots : List Token) (hshape : shape = .units nots) :
    Piece exec (.units (nots ++ nots₀)) (ts ++ us) r r'' := by
  induction h' generalizing nots with
  | nil =>
    cases hshape
    rwa [List.nil_append, List.append_nil]
  | operand _ ht he ih => exact List.append_assoc ts _ _ ▸ .operand (ih h nots hshape) ht he
  | @not nots' _ _ _ t _ ht ih =>
    cases hshape
    exact List.append_assoc ts _ _ ▸ .not (ih h nots' rfl) ht
  | skip _ ht ih => exact List.append_assoc ts _ _ ▸ .skip (ih h nots hshape) ht
  | group _ hl hus hr ih _ =>
    exact List.append_assoc ts _ _ ▸ .group (ih h nots hshape) hl hus hr
  | units => cases hshape
  | binary => cases hshape
  | up => cases hshape

/-- An expression is a segment that leaves its tree on the stack. From level `3` on, it is
made of units, and only `!` are still to be executed. -/
theorem Derives.segment {mk : Token → ExpressionNode V F} (h : Derives n ts e)
    (hmk : ∀ t ∈ ts, t.type.isOperand = true → env.makeOperand t = .ok (mk t))
    (s : List (ExpressionNode V F)) :
    (3 ≤ n → ∃ nots s', Piece (nodeExec env) (.units nots) ts s s' ∧
        runQueue (nodeExec env) nots s' = some (e.tree mk :: s)) ∧
      Segment (nodeExec env) (min n 3 + 2) ts s (e.tree mk :: s) := by
  induction h generalizing s with
  | @operand t ht =>
    have hunits : Piece (nodeExec env) (.units []) [t] s (mk t :: s) :=
      .operand (.nil s) ht (nodeExec_operand ht (hmk t List.mem_cons_self ht))
    exact ⟨fun _ => ⟨[], _, hunits, rfl⟩, .units hunits rfl⟩
  | @brakets l r ts e hl _ hr ih =>
    have hts : ∀ t ∈ ts, t ∈ l :: ts ++ [r] := fun t ht => by simp [ht]
    obtain ⟨-, hsegment⟩ := ih (fun t ht => hmk t (hts t ht)) s
    have hunits : Piece (nodeExec env) (.units []) (l :: ts ++ [r]) s (e.tree mk :: s) :=
      .group (.nil s) hl (hsegment.of_le (Nat.zero_le _)) hr
    exact ⟨fun _ => ⟨[], _, hunits, rfl⟩, .units hunits rfl⟩
  | @not t ts e ht _ ih =>
    obtain ⟨hunits, -⟩ := ih (fun t' ht' => hmk t' (List.mem_cons_of_mem t ht')) s
    obtain ⟨nots, s', hunits, hrun⟩ := hunits (Nat.le_refl 3)
    have hnot : Piece (nodeExec env) (.units [t]) [t] s s := .not (.nil s) ht
    have hall := hnot.append_units hunits nots rfl
    have hrun' : runQueue (nodeExec env) (nots ++ [t]) s' =
        some ((Expr.not e).tree mk :: s) :=
      runQueue_append_eq_some.mpr ⟨_, hrun, by rw [runQueue_singleton, nodeExec_not ht]; rfl⟩
    exact ⟨fun _ => ⟨_, s', hall, hrun'⟩, .units hall hrun'⟩
  | @binary t op ts us a b ht _ _ iha ihb =>
    have hlevel : op.level ≤ 2 := by cases op <;> decide
    obtain ⟨hbinary, hpriority⟩ := isBinary_of_meaning ht
    obtain ⟨-, ha⟩ := iha (fun t' ht' => hmk t' (by simp [ht'])) s
    obtain ⟨-, hb⟩ := ihb (fun t' ht' => hmk t' (by simp [ht'])) (a.tree mk :: s)
    rw [Nat.min_eq_left (by omega), ← hpriority] at ha
    rw [Nat.min_eq_left (by omega), Nat.add_right_comm, ← hpriority] at hb
    refine ⟨fun h => by omega, ?_⟩
    rw [Nat.min_eq_left (by omega), ← hpriority]
    exact .binary hbinary ha hb (nodeExec_binary ht)
  | @up n ts e _ ih =>
    obtain ⟨hunits, hsegment⟩ := ih hmk s
    exact ⟨fun h => hunits (by omega), hsegment.of_le (by omega)⟩

theorem Derives.ne_nil (h : Derives n ts e) : ts ≠ [] := by
  induction h with
  | operand => simp
  | brakets => simp
  | not => simp
  | binary => simp
  | up _ ih => exact ih

theorem Derives.exists_operand (h : Derives n ts e) :
    ∃ t ∈ ts, t.type.isOperand = true := by
  induction h with
  | @operand t ht => exact ⟨t, List.mem_cons_self, ht⟩
  | brakets _ _ _ ih =>
    obtain ⟨t, ht, ho⟩ := ih
    exact ⟨t, by simp [ht], ho⟩
  | not _ _ ih =>
    obtain ⟨t, ht, ho⟩ := ih
    exact ⟨t, List.mem_cons_of_mem _ ht, ho⟩
  | binary _ _ _ iha _ =>
    obtain ⟨t, ht, ho⟩ := iha
    exact ⟨t, List.mem_append_left _ ht, ho⟩
  | up _ ih => exact ih

/-- The tree of an expression evaluates to its value. -/
theorem Derives.evaluate_tree [DoubleOps V] (h : Derives n ts e) (mk : Token → ExpressionNode V F)
    (execute : F → Option V) (ν : Token → V)
    (hν : ∀ t ∈ ts, t.type.isOperand = true → (mk t).evaluate execute = some (ν t)) :
    (e.tree mk).evaluate execute = some (e.value ν) := by
  induction h with
  | operand ht => exact hν _ List.mem_cons_self ht
  | brakets _ _ _ ih => exact ih fun t ht => hν t (by simp [ht])
  | not _ _ ih =>
    rw [Expr.tree, ExpressionNode.evaluate, ih fun t ht => hν t (List.mem_cons_of_mem _ ht),
      Expr.value]
    simp [notValue, truth, DoubleOps.ne]
  | binary _ _ _ iha ihb =>
    rw [Expr.tree, ExpressionNode.evaluate, iha fun t ht => hν t (by simp [ht]),
      ihb fun t ht => hν t (by simp [ht]), Expr.value, Operator.evaluate_some]
  | up _ ih => exact ih hν

/-- The value of an operand when the tree is evaluated. -/
def OperandSource.operandValue [DoubleOps V] (env : OperandSource V F)
    (execute : F → Option V) (t : Token) : Option V :=
  (env.makeOperand t).toOption.bind fun node => node.evaluate execute

section Compilation

variable [DoubleOps V] {env : OperandSource V F} {mk : Token → ExpressionNode V F}

omit [DoubleOps V] in
/-- The nodes of the operands, if all can be made. -/
theorem Derives.exists_nodes (h : Derives n ts e)
    (hoperands : ∀ t ∈ ts, t.type.isOperand = true → ∃ node, env.makeOperand t = .ok node) :
    ∃ mk : Token → ExpressionNode V F,
      ∀ t ∈ ts, t.type.isOperand = true → env.makeOperand t = .ok (mk t) := by
  classical
  have hmk : ∀ t, ∃ node, t ∈ ts → t.type.isOperand = true → env.makeOperand t = .ok node := by
    intro t
    by_cases ht : t ∈ ts ∧ t.type.isOperand = true
    · obtain ⟨node, hnode⟩ := hoperands t ht.1 ht.2
      exact ⟨node, fun _ _ => hnode⟩
    · obtain ⟨t₀, ht₀, ho⟩ := h.exists_operand
      obtain ⟨node, -⟩ := hoperands t₀ ht₀ ho
      exact ⟨node, fun h₁ h₂ => absurd ⟨h₁, h₂⟩ ht⟩
  choose mk hmk using hmk
  exact ⟨mk, hmk⟩

omit [DoubleOps V] in
/-- The tree that is built for an expression is its own. -/
theorem Derives.buildParseTree_eq (h : Derives 0 ts e)
    (hmk : ∀ t ∈ ts, t.type.isOperand = true → env.makeOperand t = .ok (mk t)) :
    buildParseTree env ts = .ok (e.tree mk) := by
  obtain ⟨-, hsegment⟩ := h.segment hmk []
  obtain ⟨queue, hyards, hrun⟩ :=
    shutingYards_of_segment (hsegment.of_le (Nat.zero_le _)) h.ne_nil
  rw [runQueue_nodeExec] at hrun
  have hbuild : buildNodes env queue [] = .ok [e.tree mk] := by
    cases hb : buildNodes env queue [] with
    | error err => rw [hb] at hrun; cases hrun
    | ok nodes => rw [hb] at hrun; exact congrArg _ (Option.some.inj hrun)
  rw [buildParseTree, hyards]
  simp only [hbuild]

/-- The tree evaluates to the value of the expression, given those of the operands. -/
theorem Derives.evaluate_of_operandValue (h : Derives n ts e)
    (hmk : ∀ t ∈ ts, t.type.isOperand = true → env.makeOperand t = .ok (mk t))
    {execute : F → Option V} {ν : Token → V}
    (hν : ∀ t ∈ ts, t.type.isOperand = true → env.operandValue execute t = some (ν t)) :
    (e.tree mk).evaluate execute = some (e.value ν) := by
  refine h.evaluate_tree mk execute ν fun t ht ho => ?_
  have hoperand := hν t ht ho
  rwa [OperandSource.operandValue, hmk t ht ho] at hoperand

end Compilation

/-- **Compilation of expressions is correct.** For every list of tokens the grammar generates
a tree is built, and for all values of the operands it evaluates to the value of the
expression. -/
theorem buildParseTree_of_derives [DoubleOps V] (env : OperandSource V F) {ts : List Token}
    {e : Expr} (h : Derives 0 ts e)
    (hoperands : ∀ t ∈ ts, t.type.isOperand = true → ∃ node, env.makeOperand t = .ok node) :
    ∃ root, buildParseTree env ts = .ok root ∧
      ∀ (execute : F → Option V) (ν : Token → V),
        (∀ t ∈ ts, t.type.isOperand = true → env.operandValue execute t = some (ν t)) →
          root.evaluate execute = some (e.value ν) ∧
            root.holds execute = some (truth (e.value ν)) := by
  obtain ⟨mk, hmk⟩ := h.exists_nodes hoperands
  refine ⟨e.tree mk, h.buildParseTree_eq hmk, fun execute ν hν => ?_⟩
  have hvalue := h.evaluate_of_operandValue hmk hν
  refine ⟨hvalue, ?_⟩
  rw [ExpressionNode.holds, hvalue]
  rfl

/-- The constants `0` to `2`, and functions known by their names. -/
def digits : OperandSource ℤ String where
  stod text := if text = "0" then some 0 else if text = "1" then some 1 else
    if text = "2" then some 2 else none
  tryRowIntValue _ := none
  queryFunction := some
  ofInt := id

/-- `! 1 == 0 || 2 < 1` is true: `!` binds tighter than `==`. -/
theorem buildParseTree_of_derives_digits :
    ∃ root, buildParseTree digits [⟨.operatorNot, "!"⟩, ⟨.operandConstant, "1"⟩,
        ⟨.operatorEqual, "=="⟩, ⟨.operandConstant, "0"⟩, ⟨.operatorOr, "||"⟩,
        ⟨.operandConstant, "2"⟩, ⟨.operatorLt, "<"⟩, ⟨.operandConstant, "1"⟩] = .ok root ∧
      root.holds (fun _ => none) = some true := by
  have hequal : NodeType.operatorEqual.meaning = some .equal := rfl
  have hless : NodeType.operatorLt.meaning = some .lessThan := rfl
  have hor : NodeType.operatorOr.meaning = some .or := rfl
  have hconst (text : String) : Derives 4 [⟨.operandConstant, text⟩] _ := .operand rfl
  have hnot := Derives.not (t := ⟨.operatorNot, "!"⟩) rfl (.up (hconst "1"))
  have hleft := Derives.binary (t := ⟨.operatorEqual, "=="⟩) hequal (.up hnot)
    (.up (hconst "0"))
  have hright := Derives.binary (t := ⟨.operatorLt, "<"⟩) hless (.up (.up (hconst "2")))
    (.up (hconst "1"))
  have hall := Derives.binary (t := ⟨.operatorOr, "||"⟩) hor (.up (.up hleft)) (.up hright)
  obtain ⟨root, hroot, hvalue⟩ := buildParseTree_of_derives digits hall (by
    simp [digits, OperandSource.makeOperand, NodeType.isOperand])
  refine ⟨root, hroot, ?_⟩
  exact (hvalue (fun _ => none) (fun t => (digits.stod t.text).getD 0) (by decide)).2

/-! ### What is rejected -/

/-- The number of nodes on the stack after a token of the queue. -/
def valueCount (env : OperandSource V F) (t : Token) (count : ℕ) : Option ℕ :=
  if t.type.isOperand then
    match env.makeOperand t with
    | .ok _ => some (count + 1)
    | .error _ => none
  else if t.type.isBinary then if 2 ≤ count then some (count - 1) else none
  else if t.type = .operatorNot then if 1 ≤ count then some count else none
  else if t.type = .operandNone then some count
  else none

theorem length_nodeExec (t : Token) (s : List (ExpressionNode V F)) :
    (nodeExec env t s).map List.length = valueCount env t s.length := by
  unfold nodeExec buildNode valueCount
  cases htype : t.type
  case operandConstant | operandEnum | operandFunction =>
    cases env.makeOperand t <;> rfl
  case operatorNot => cases s <;> rfl
  case operandNone | operatorRightBraket | operatorLeftBraket => rfl
  all_goals rcases s with _ | ⟨_, _ | ⟨_, s⟩⟩ <;> rfl

/-- The number of nodes can be followed without the nodes. -/
theorem length_runQueue_nodeExec (env : OperandSource V F) (queue : List Token)
    (s : List (ExpressionNode V F)) :
    (runQueue (nodeExec env) queue s).map List.length =
      runQueue (valueCount env) queue s.length := by
  induction queue generalizing s with
  | nil => rfl
  | cons t queue ih =>
    rw [runQueue, runQueue, ← length_nodeExec]
    cases nodeExec env t s with
    | none => rfl
    | some s' => exact ih s'

/-- The list is a segment that leaves one value on an empty stack: its brackets match, every
operator finds enough values when it is executed, all operands can be made, and one value is
left at the end. Where the values of an operator stand does not matter, as long as they come
before the point at which it is executed. -/
def Balanced (env : OperandSource V F) (ts : List Token) : Prop :=
  ts ≠ [] ∧ Segment (valueCount env) 0 ts 0 1

/-- When a tree is built. -/
theorem buildParseTree_isOk_iff (env : OperandSource V F) (ts : List Token) :
    (∃ root, buildParseTree env ts = .ok root) ↔ Balanced env ts := by
  rw [Balanced, ← shutingYards_iff]
  constructor
  · rintro ⟨root, hroot⟩
    rw [buildParseTree] at hroot
    split at hroot
    · rename_i queue hyards
      split at hroot
      · rename_i root' hbuild
        refine ⟨queue, hyards, ?_⟩
        have hcount := length_runQueue_nodeExec env queue []
        rw [runQueue_nodeExec, hbuild] at hcount
        exact hcount.symm
      · cases hroot
      · cases hroot
    · cases hroot
  · rintro ⟨queue, hyards, hrun⟩
    have hcount := length_runQueue_nodeExec env queue []
    rw [List.length_nil, hrun, Option.map_eq_some_iff, runQueue_nodeExec] at hcount
    obtain ⟨nodes, hnodes, hlength⟩ := hcount
    obtain ⟨root, rfl⟩ := List.length_eq_one_iff.mp hlength
    refine ⟨root, ?_⟩
    rw [buildParseTree, hyards]
    cases hb : buildNodes env queue [] with
    | error err => rw [hb] at hnodes; cases hnodes
    | ok nodes =>
      rw [hb] at hnodes
      obtain rfl := Option.some.inj hnodes
      simp only [hb]

/-- **Which lists that spell no expression are rejected**: those that are not balanced. -/
theorem rejects_iff (env : OperandSource V F) (ts : List Token) :
    ((¬∃ e, Derives 0 ts e) → ∃ err, buildParseTree env ts = .error err) ↔
      (∃ e, Derives 0 ts e) ∨ ¬Balanced env ts := by
  have hthrows : (∃ err, buildParseTree env ts = .error err) ↔ ¬Balanced env ts := by
    rw [← buildParseTree_isOk_iff]
    cases buildParseTree env ts with
    | error err => simp
    | ok root => simp
  rw [hthrows]
  exact Classical.or_iff_not_imp_left.symm

/-- An expression ends with an operand or a right bracket. -/
theorem Derives.getLast?_eq (h : Derives n ts e) :
    ∃ t, ts.getLast? = some t ∧
      (t.type.isOperand = true ∨ t.type = .operatorRightBraket) := by
  induction h with
  | @operand t ht => exact ⟨t, rfl, .inl ht⟩
  | @brakets l r ts e _ _ hr => exact ⟨r, List.getLast?_concat, .inr hr⟩
  | @not t ts e _ _ ih =>
    obtain ⟨t', hlast, ht'⟩ := ih
    exact ⟨t', by simp [List.getLast?_cons, hlast], ht'⟩
  | @binary t op ts us a b _ _ _ _ ih =>
    obtain ⟨t', hlast, ht'⟩ := ih
    exact ⟨t', by simp [List.getLast?_append, List.getLast?_cons, hlast], ht'⟩
  | up _ ih => exact ih

/-- `1 1 ==` is no expression, but a tree is built for it. -/
theorem not_rejects_operands_first :
    ¬((¬∃ e, Derives 0 [⟨.operandConstant, "1"⟩, ⟨.operandConstant, "1"⟩,
          ⟨.operatorEqual, "=="⟩] e) →
        ∃ err, buildParseTree digits [⟨.operandConstant, "1"⟩, ⟨.operandConstant, "1"⟩,
          ⟨.operatorEqual, "=="⟩] = .error err) := by
  intro h
  have hno : ¬∃ e, Derives 0 [⟨.operandConstant, "1"⟩, ⟨.operandConstant, "1"⟩,
      ⟨.operatorEqual, "=="⟩] e := by
    rintro ⟨e, he⟩
    obtain ⟨t, hlast, ht⟩ := he.getLast?_eq
    obtain rfl := Option.some.inj hlast
    revert ht
    decide
  obtain ⟨err, herr⟩ := h hno
  have hok : buildParseTree digits [⟨.operandConstant, "1"⟩, ⟨.operandConstant, "1"⟩,
      ⟨.operatorEqual, "=="⟩] = .ok (.operator .equal (.constant 1) (.constant 1)) := rfl
  rw [hok] at herr
  cases herr

end Trees

end UtilityFramework
