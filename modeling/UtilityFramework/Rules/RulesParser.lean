import UtilityFramework.Rules.Grammar

/-!
# From the rules file to the rule

`rules_parser::get_rule_expression` reads the tokens of a rule's expression from the children
of its `Expression` element, in document order: the operators, functions and enumerations of
each `Condition`, and each `Middle_Operator`. The traversal is `ruleTokens`; it takes the
table from operator texts to tokens as an argument, so that the table of the code,
`getOperatorPairFromString`, can be compared with `usualOperatorPair`, the meaning the texts
have for the author of the file.

The two tables differ at `<=` and `>=`, which the code reads as `<` and `>`.
`getRuleExpression_eq` carries the difference to token lists and `Derives.misread` to
expressions: a rule evaluates to the value of the expression so changed, which is that of the
written one as long as no such comparison has equal sides.
-/

namespace UtilityFramework

/-! ### The parser -/

/-- `files::xml_element_interface`. -/
inductive XmlElement
  | element (name value : String) (children : List XmlElement)

namespace XmlElement

def name : XmlElement → String
  | element name _ _ => name

def value : XmlElement → String
  | element _ value _ => value

def children : XmlElement → List XmlElement
  | element _ _ children => children

end XmlElement

/-- `get_operator_pair_from_string`. -/
def getOperatorPairFromString (text : String) : Except String Token :=
  if text = "&&" then .ok ⟨.operatorAnd, "&&"⟩
  else if text = "||" then .ok ⟨.operatorOr, "||"⟩
  else if text = "!" then .ok ⟨.operatorNot, "!"⟩
  else if text = "==" then .ok ⟨.operatorEqual, "=="⟩
  else if text = "!=" then .ok ⟨.operatorNotEqual, "!="⟩
  else if text = "<" then .ok ⟨.operatorLt, "<"⟩
  else if text = "<=" then .ok ⟨.operatorLt, "<="⟩
  else if text = ">" then .ok ⟨.operatorGt, ">"⟩
  else if text = ">=" then .ok ⟨.operatorGt, ">="⟩
  else if text = "(" then .ok ⟨.operatorLeftBraket, "("⟩
  else if text = ")" then .ok ⟨.operatorRightBraket, ")"⟩
  else .error "unknown operator."

/-- `get_function_pair_from_string`. -/
def getFunctionPairFromString (functionName : String) : Token :=
  ⟨.operandFunction, functionName⟩

/-- `get_enumeration_pair_from_string`: a text that begins with a digit is a constant, one
that begins with `Get` a function. -/
def getEnumerationPairFromString (enumerationName : String) : Token :=
  if (enumerationName.toList.head?.any Char.isDigit) = true then
    ⟨.operandConstant, enumerationName⟩
  else if ("Get".toList.isPrefixOf enumerationName.toList) = true then
    ⟨.operandFunction, enumerationName⟩
  else ⟨.operandEnum, enumerationName⟩

/-- The tokens of one child of a `Condition`; other children are skipped. -/
def conditionTokens (operatorPair : String → Except String Token) :
    List XmlElement → Except String (List Token)
  | [] => .ok []
  | entry :: entries =>
    if entry.name = "Operator" then do
      let token ← operatorPair entry.value
      let tokens ← conditionTokens operatorPair entries
      return token :: tokens
    else if entry.name = "Function" then do
      let tokens ← conditionTokens operatorPair entries
      return getFunctionPairFromString entry.value :: tokens
    else if entry.name = "Enumeration" then do
      let tokens ← conditionTokens operatorPair entries
      return getEnumerationPairFromString entry.value :: tokens
    else conditionTokens operatorPair entries

/-- The tokens of the children of an `Expression`. -/
def ruleTokens (operatorPair : String → Except String Token) :
    List XmlElement → Except String (List Token)
  | [] => .ok []
  | entry :: entries =>
    if entry.name = "Condition" then do
      let condition ← conditionTokens operatorPair entry.children
      let tokens ← ruleTokens operatorPair entries
      return condition ++ tokens
    else if entry.name = "Middle_Operator" then do
      let token ← operatorPair entry.value
      let tokens ← ruleTokens operatorPair entries
      return token :: tokens
    else ruleTokens operatorPair entries

/-- `get_rule_expression`. -/
def getRuleExpression (rules : XmlElement) : Except String (List Token) :=
  ruleTokens getOperatorPairFromString rules.children

/-- The expression of a rule: the tokens of the element, and the tree built from them. -/
def ruleExpression {V F : Type*} (env : OperandSource V F) (rules : XmlElement) :
    Except String (ExpressionNode V F) :=
  match getRuleExpression rules with
  | .ok tokens => buildParseTree env tokens
  | .error e => .error e

/-! ### What is written -/

/-- What an operator text means to the author of the file. -/
def usualType (text : String) : Option NodeType :=
  if text = "&&" then some .operatorAnd
  else if text = "||" then some .operatorOr
  else if text = "!" then some .operatorNot
  else if text = "==" then some .operatorEqual
  else if text = "!=" then some .operatorNotEqual
  else if text = "<" then some .operatorLt
  else if text = "<=" then some .operatorLte
  else if text = ">" then some .operatorGt
  else if text = ">=" then some .operatorGte
  else if text = "(" then some .operatorLeftBraket
  else if text = ")" then some .operatorRightBraket
  else none

def usualOperatorPair (text : String) : Except String Token :=
  match usualType text with
  | some type => .ok ⟨type, text⟩
  | none => .error "unknown operator."

/-- The tokens an `Expression` element spells. -/
def writtenTokens (rules : XmlElement) : Except String (List Token) :=
  ruleTokens usualOperatorPair rules.children

/-- `<=` and `>=` read as `<` and `>`. -/
def NodeType.misread : NodeType → NodeType
  | operatorLte => operatorLt
  | operatorGte => operatorGt
  | type => type

def Token.misread (t : Token) : Token := ⟨t.type.misread, t.text⟩

def Operator.misread : Operator → Operator
  | .lessThanEqual => .lessThan
  | .greaterThanEqual => .greaterThan
  | op => op

def Expr.misread : Expr → Expr
  | .operand t => .operand t
  | .binary op a b => .binary op.misread a.misread b.misread
  | .not e => .not e.misread

/-- The table of the code is the usual one, but for the two operators. -/
theorem getOperatorPairFromString_eq (text : String) :
    getOperatorPairFromString text = (usualOperatorPair text).map Token.misread := by
  by_cases h : text ∈ ["&&", "||", "!", "==", "!=", "<", "<=", ">", ">=", "(", ")"]
  · simp only [List.mem_cons, List.not_mem_nil, or_false] at h
    rcases h with rfl | rfl | rfl | rfl | rfl | rfl | rfl | rfl | rfl | rfl | rfl <;> rfl
  · simp only [List.mem_cons, List.not_mem_nil, or_false, not_or] at h
    have hunknown : usualType text = none := by
      simp only [usualType, h, if_false]
    rw [usualOperatorPair, hunknown]
    simp only [getOperatorPairFromString, h, if_false]
    rfl

theorem misread_of_isOperand {t : Token} (h : t.type.isOperand = true) : t.misread = t := by
  obtain ⟨type, text⟩ := t
  cases type <;> first | rfl | cases h

theorem misread_getEnumerationPairFromString (text : String) :
    (getEnumerationPairFromString text).misread = getEnumerationPairFromString text := by
  refine misread_of_isOperand ?_
  unfold getEnumerationPairFromString
  split_ifs <;> rfl

theorem conditionTokens_eq (entries : List XmlElement) :
    conditionTokens getOperatorPairFromString entries =
      (conditionTokens usualOperatorPair entries).map (List.map Token.misread) := by
  induction entries with
  | nil => rfl
  | cons entry entries ih =>
    rw [conditionTokens, conditionTokens, ih, getOperatorPairFromString_eq]
    split_ifs
    · cases usualOperatorPair entry.value <;>
        cases conditionTokens usualOperatorPair entries <;> rfl
    · cases conditionTokens usualOperatorPair entries <;> rfl
    · cases conditionTokens usualOperatorPair entries with
      | error e => rfl
      | ok tokens =>
        exact congrArg (fun t => Except.ok (t :: tokens.map Token.misread))
          (misread_getEnumerationPairFromString entry.value).symm
    · rfl

theorem ruleTokens_eq (entries : List XmlElement) :
    ruleTokens getOperatorPairFromString entries =
      (ruleTokens usualOperatorPair entries).map (List.map Token.misread) := by
  induction entries with
  | nil => rfl
  | cons entry entries ih =>
    rw [ruleTokens, ruleTokens, ih, getOperatorPairFromString_eq, conditionTokens_eq]
    split_ifs
    · cases conditionTokens usualOperatorPair entry.children with
      | error e => rfl
      | ok condition =>
        cases ruleTokens usualOperatorPair entries with
        | error e => rfl
        | ok tokens => exact congrArg Except.ok List.map_append.symm
    · cases usualOperatorPair entry.value <;>
        cases ruleTokens usualOperatorPair entries <;> rfl
    · rfl

/-- The tokens of a rule are those that are written, with the two operators misread. -/
theorem getRuleExpression_eq {rules : XmlElement} {ts : List Token}
    (h : writtenTokens rules = .ok ts) :
    getRuleExpression rules = .ok (ts.map Token.misread) := by
  rw [getRuleExpression, ruleTokens_eq, ← writtenTokens, h]
  rfl

/-! ### What is understood -/

theorem meaning_misread {type : NodeType} {op : Operator} (h : type.meaning = some op) :
    type.misread.meaning = some op.misread := by
  cases type <;> simp_all [NodeType.meaning, NodeType.misread] <;> subst h <;> rfl

theorem level_misread (op : Operator) : op.misread.level = op.level := by
  cases op <;> rfl

theorem isOperand_misread (t : Token) : t.misread.type.isOperand = t.type.isOperand := by
  obtain ⟨type, text⟩ := t
  cases type <;> rfl

/-- Misread tokens spell the misread expression: the operators keep their strength. -/
theorem Derives.misread {n : ℕ} {ts : List Token} {e : Expr} (h : Derives n ts e) :
    Derives n (ts.map Token.misread) e.misread := by
  induction h with
  | @operand t ht =>
    rw [List.map_singleton, misread_of_isOperand ht]
    exact .operand ht
  | @brakets l r ts e hl _ hr ih =>
    have hl' : l.misread.type = .operatorLeftBraket := by rw [Token.misread, hl]; rfl
    have hr' : r.misread.type = .operatorRightBraket := by rw [Token.misread, hr]; rfl
    rw [List.map_append, List.map_cons, List.map_singleton]
    exact .brakets hl' ih hr'
  | @not t ts e ht _ ih =>
    have ht' : t.misread.type = .operatorNot := by rw [Token.misread, ht]; rfl
    exact .not ht' ih
  | @binary t op ts us a b ht _ _ iha ihb =>
    rw [← level_misread op] at iha ihb ⊢
    rw [List.map_append, List.map_cons]
    exact .binary (meaning_misread ht) iha ihb
  | up _ ih => exact .up ih

section Values

variable {V F : Type*} [DoubleOps V]

open DoubleOps

/-- No `<=` or `>=` has equal sides. -/
def Expr.NoTie (ν : Token → V) : Expr → Prop
  | .operand _ => True
  | .binary op a b => a.NoTie ν ∧ b.NoTie ν ∧
      (op = .lessThanEqual → eq (a.value ν) (b.value ν) = false) ∧
      (op = .greaterThanEqual → eq (b.value ν) (a.value ν) = false)
  | .not e => e.NoTie ν

/-- The subexpressions of an expression, itself included. -/
def Expr.subexpressions : Expr → List Expr
  | .operand t => [.operand t]
  | .binary op a b => .binary op a b :: (a.subexpressions ++ b.subexpressions)
  | .not e => .not e :: e.subexpressions

/-- Misreading an operator makes no difference unless its sides are equal. -/
theorem Operator.holds_misread_iff (op : Operator) (a b : V) :
    op.misread.holds a b = op.holds a b ↔
      (op = .lessThanEqual → eq a b = false) ∧ (op = .greaterThanEqual → eq b a = false) := by
  cases op with
  | lessThanEqual =>
    cases h : eq a b with
    | false => simp [misread, holds, h]
    | true => simp [misread, holds, h, not_lt_of_eq a b h]
  | greaterThanEqual =>
    cases h : eq b a with
    | false => simp [misread, holds, h]
    | true => simp [misread, holds, h, not_lt_of_eq b a h]
  | _ => simp [misread]

theorem ofBool_injective : Function.Injective (ofBool : Bool → V) := by
  intro p q h
  have hpq := eq_ofBool (V := V) p q
  have hqq := eq_ofBool (V := V) q q
  rw [h, hqq] at hpq
  exact beq_iff_eq.mp (hpq.symm.trans (beq_self_eq_true q))

/-- An expression means the same misread if no comparison has a tie. -/
theorem Expr.value_misread {ν : Token → V} {e : Expr} (h : e.NoTie ν) :
    e.misread.value ν = e.value ν := by
  induction e with
  | operand t => rfl
  | binary op a b iha ihb =>
    obtain ⟨ha, hb, htie⟩ := h
    rw [misread, value, iha ha, ihb hb, (op.holds_misread_iff _ _).mpr htie, value]
  | not e ih => rw [misread, value, ih h, value]

/-- All subexpressions mean the same misread exactly if no comparison has a tie. -/
theorem Expr.noTie_iff {ν : Token → V} {e : Expr} :
    (∀ a ∈ e.subexpressions, a.misread.value ν = a.value ν) ↔ e.NoTie ν := by
  induction e with
  | operand t => simp [subexpressions, NoTie, misread]
  | not e ih =>
    rw [subexpressions, List.forall_mem_cons, ih, NoTie, and_iff_right_of_imp]
    intro h
    rw [misread, value, value_misread h, value]
  | binary op a b iha ihb =>
    rw [subexpressions, List.forall_mem_cons, List.forall_mem_append, iha, ihb, NoTie]
    constructor
    · rintro ⟨hop, ha, hb⟩
      rw [misread, value, value_misread ha, value_misread hb, value] at hop
      exact ⟨ha, hb, (op.holds_misread_iff _ _).mp (ofBool_injective hop)⟩
    · rintro ⟨ha, hb, htie⟩
      exact ⟨value_misread ⟨ha, hb, htie⟩, ha, hb⟩

/-- **What a rule means.** The rule built from an element that spells `e` evaluates to the
value of `e` with `<=` and `>=` read as `<` and `>`. That is the value of `e` if no such
comparison has equal sides; and this is exactly when all subexpressions keep their values. -/
theorem ruleExpression_misread (env : OperandSource V F) {rules : XmlElement}
    {ts : List Token} {e : Expr} (hts : writtenTokens rules = .ok ts) (he : Derives 0 ts e)
    (hoperands : ∀ t ∈ ts, t.type.isOperand = true → ∃ node, env.makeOperand t = .ok node) :
    ∃ root, ruleExpression env rules = .ok root ∧
      ∀ (execute : F → Option V) (ν : Token → V),
        (∀ t ∈ ts, t.type.isOperand = true → env.operandValue execute t = some (ν t)) →
          root.evaluate execute = some (e.misread.value ν) ∧
            (e.NoTie ν → root.holds execute = some (truth (e.value ν))) ∧
            ((∀ a ∈ e.subexpressions, a.misread.value ν = a.value ν) ↔ e.NoTie ν) := by
  have hmem {P : Token → Prop} (h : ∀ t ∈ ts, t.type.isOperand = true → P t) :
      ∀ t ∈ ts.map Token.misread, t.type.isOperand = true → P t := by
    intro t ht ho
    obtain ⟨t, ht', rfl⟩ := List.mem_map.mp ht
    rw [isOperand_misread] at ho
    rw [misread_of_isOperand ho]
    exact h t ht' ho
  obtain ⟨mk, hmk⟩ := he.misread.exists_nodes (hmem hoperands)
  refine ⟨e.misread.tree mk, ?_, fun execute ν hν => ?_⟩
  · rw [ruleExpression, getRuleExpression_eq hts]
    exact he.misread.buildParseTree_eq hmk
  · have heval := he.misread.evaluate_of_operandValue hmk (hmem hν)
    refine ⟨heval, fun h => ?_, Expr.noTie_iff⟩
    rw [ExpressionNode.holds, heval, Expr.value_misread h]
    rfl

/-- The element with the one condition `left <= right`. -/
def lessThanEqualElement (left right : String) : XmlElement :=
  .element "Expression" "" [.element "Condition" "" [.element "Enumeration" left [],
    .element "Operator" "<=" [], .element "Enumeration" right []]]

theorem derives_lessThanEqual (left right : String) :
    Derives 0 [⟨.operandConstant, left⟩, ⟨.operatorLte, "<="⟩, ⟨.operandConstant, right⟩]
      (.binary .lessThanEqual (.operand ⟨.operandConstant, left⟩)
        (.operand ⟨.operandConstant, right⟩)) := by
  have hop : NodeType.operatorLte.meaning = some .lessThanEqual := rfl
  have hconst (text : String) : Derives 4 [⟨.operandConstant, text⟩] _ := .operand rfl
  exact .up (.up (Derives.binary (t := ⟨.operatorLte, "<="⟩) hop (.up (.up (hconst left)))
    (.up (hconst right))))

/-- `1 <= 2` has no tie, and is understood. -/
theorem ruleExpression_misread_one_two :
    ∃ root, ruleExpression digits (lessThanEqualElement "1" "2") = .ok root ∧
      root.holds (fun _ => none) = some true := by
  have hts : writtenTokens (lessThanEqualElement "1" "2") = .ok [⟨.operandConstant, "1"⟩,
      ⟨.operatorLte, "<="⟩, ⟨.operandConstant, "2"⟩] := by decide
  obtain ⟨root, hroot, hvalue⟩ := ruleExpression_misread digits hts
    (derives_lessThanEqual "1" "2") (by
      simp [digits, OperandSource.makeOperand, NodeType.isOperand])
  obtain ⟨-, hholds, -⟩ := hvalue (fun _ => none) (fun t => (digits.stod t.text).getD 0)
    (by decide)
  exact ⟨root, hroot, hholds ⟨trivial, trivial, fun _ => by decide, fun h => by cases h⟩⟩

/-- `1 <= 1` is written and true, but the rule evaluates to false. -/
theorem ruleExpression_one_one :
    writtenTokens (lessThanEqualElement "1" "1") = .ok [⟨.operandConstant, "1"⟩,
        ⟨.operatorLte, "<="⟩, ⟨.operandConstant, "1"⟩] ∧
      Derives 0 [⟨.operandConstant, "1"⟩, ⟨.operatorLte, "<="⟩, ⟨.operandConstant, "1"⟩]
        (.binary .lessThanEqual (.operand ⟨.operandConstant, "1"⟩)
          (.operand ⟨.operandConstant, "1"⟩)) ∧
      truth ((Expr.binary .lessThanEqual (.operand ⟨.operandConstant, "1"⟩)
        (.operand ⟨.operandConstant, "1"⟩)).value fun t => (digits.stod t.text).getD 0) = true ∧
      ∃ root, ruleExpression digits (lessThanEqualElement "1" "1") = .ok root ∧
        root.holds (fun _ => none) = some false := by
  refine ⟨by decide, derives_lessThanEqual "1" "1", by decide, ?_⟩
  exact ⟨.operator .lessThan (.constant 1) (.constant 1), rfl, by decide⟩

end Values

end UtilityFramework
