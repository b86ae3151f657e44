import Mathlib.Data.List.Basic
import Mathlib.Data.Int.Order.Basic

/-!
# Rule expressions

`expression`, with `node`, the operand nodes and the operator nodes: a list of tokens in
infix order is put into reverse Polish order by `shuting_yards` and made into a tree by
`build_parse_tree`; the tree is evaluated on demand.

An exception is the text of its `what`. The values are `double`s, of which the code uses the
comparisons and the conversion of truth values; `DoubleOps` lists these with the facts of
the floating-point standard that are needed. What the nodes ask of the rules dispatcher is
in `OperandSource`: constants and enumeration values are looked up when the tree is built, a
function is looked up then and executed when the tree is evaluated.
-/

namespace UtilityFramework

/-! ### Tokens -/

/-- `node::node_type_enum`. -/
inductive NodeType
  | operandNone
  | operandConstant
  | operandEnum
  | operandFunction
  | operatorEqual
  | operatorNotEqual
  | operatorLt
  | operatorLte
  | operatorGt
  | operatorGte
  | operatorRightBraket
  | operatorLeftBraket
  | operatorAnd
  | operatorOr
  | operatorNot
  deriving DecidableEq

namespace NodeType

/-- `m_map_priority`. -/
def getPriority : NodeType → ℕ
  | operatorNot => 5
  | operatorEqual | operatorNotEqual | operatorLt | operatorLte | operatorGt | operatorGte => 4
  | operatorAnd => 3
  | operatorOr => 2
  | operandConstant | operandEnum | operandFunction | operandNone | operatorRightBraket
  | operatorLeftBraket => 0

/-- `m_map_left_assoc`. -/
def isLeftAssoc : NodeType → Bool
  | operatorEqual | operatorNotEqual | operatorLt | operatorLte | operatorGt | operatorGte
  | operatorAnd | operatorOr => true
  | operandConstant | operandEnum | operandFunction | operandNone | operatorRightBraket
  | operatorLeftBraket | operatorNot => false

/-- The labels of the `switch` for operands. -/
def isOperand : NodeType → Bool
  | operandConstant | operandEnum | operandFunction => true
  | _ => false

/-- The labels of the `switch` for operators with two arguments. -/
def isBinary : NodeType → Bool
  | operatorAnd | operatorOr | operatorEqual | operatorGt | operatorGte | operatorLt
  | operatorLte | operatorNotEqual => true
  | _ => false

end NodeType

/-- A token: its type and its text. -/
structure Token where
  type : NodeType
  text : String
  deriving DecidableEq

/-! ### Nodes -/

/-- The classes of operator nodes with two children. -/
inductive Operator
  | equal
  | notEqual
  | lessThan
  | lessThanEqual
  | greaterThan
  | greaterThanEqual
  | and
  | or
  deriving DecidableEq

/-- The comparisons of `double`s, and truth values as `double`s. `!=`, `>` and `>=` are
defined from them below. -/
class DoubleOps (V : Type*) where
  ofBool : Bool → V
  eq : V → V → Bool
  lt : V → V → Bool
  le : V → V → Bool
  le_eq (a b : V) : le a b = (lt a b || eq a b)
  not_lt_of_eq (a b : V) : eq a b = true → lt a b = false
  eq_ofBool (p q : Bool) : eq (ofBool p) (ofBool q) = (p == q)

namespace DoubleOps

variable {V : Type*} [DoubleOps V]

/-- `0.0`, which is also the value of `false`. -/
def zero : V := ofBool false

def ne (a b : V) : Bool := !eq a b

def gt (a b : V) : Bool := lt b a

def ge (a b : V) : Bool := le b a

end DoubleOps

/-- Integers in place of `double`s. -/
instance : DoubleOps ℤ where
  ofBool p := if p then 1 else 0
  eq a b := decide (a = b)
  lt a b := decide (a < b)
  le a b := decide (a ≤ b)
  le_eq a b := by
    rw [Bool.eq_iff_iff, Bool.or_eq_true, decide_eq_true_iff, decide_eq_true_iff,
      decide_eq_true_iff]
    exact le_iff_lt_or_eq
  not_lt_of_eq a b h := by
    rw [decide_eq_true_iff] at h
    rw [h, decide_eq_false_iff_not]
    exact lt_irrefl b
  eq_ofBool p q := by cases p <;> cases q <;> decide

/-- A node of the parse tree: `operand_constant`, `operand_enum`, `operand_function`, an
operator with two children, `operator_not`. -/
inductive ExpressionNode (V F : Type*)
  | constant (value : V)
  | enum (value : V)
  | function (func : F)
  | operator (op : Operator) (left right : ExpressionNode V F)
  | operatorNot (left : ExpressionNode V F)

/-- What `make_operand` asks for: `std::stod` (`none` for its exceptions), the integer value
of an enumeration name, the function of a name, and the `double` of an enumeration value. -/
structure OperandSource (V F : Type*) where
  stod : String → Option V
  tryRowIntValue : String → Option ℤ
  queryFunction : String → Option F
  ofInt : ℤ → V

section Model

variable {V F : Type*} [DoubleOps V]

open DoubleOps

/-- The comparison, conjunction or disjunction an operator node returns, both children being
evaluated. -/
def Operator.apply (op : Operator) (left right : V) : V :=
  match op with
  | .equal => ofBool (eq left right)
  | .notEqual => ofBool (ne left right)
  | .lessThan => ofBool (lt left right)
  | .lessThanEqual => ofBool (le left right)
  | .greaterThan => ofBool (gt left right)
  | .greaterThanEqual => ofBool (ge left right)
  | .and => ofBool (ne left zero && ne right zero)
  | .or => ofBool (ne left zero || ne right zero)

/-- The value with which an operator node returns when it does not evaluate its right child:
`&&` after a zero, `||` after a non-zero value. -/
def Operator.shortCut (op : Operator) (left : V) : Option V :=
  match op with
  | .and => if ne left zero then none else some (ofBool false)
  | .or => if ne left zero then some (ofBool true) else none
  | _ => none

/-- The value of an operator from the evaluation of its two sides, `none` for an
exception. -/
def Operator.evaluate (op : Operator) (left right : Option V) : Option V :=
  left.bind fun l => match op.shortCut l with
    | some v => some v
    | none => right.map (op.apply l)

/-- `operator_not::evaluate`. -/
def notValue (left : V) : V := ofBool (!ne left zero)

/-- `evaluate` of a node. `execute` runs the function of an operand, `none` standing for the
exception it throws if that fails. -/
def ExpressionNode.evaluate (execute : F → Option V) : ExpressionNode V F → Option V
  | .constant value => some value
  | .enum value => some value
  | .function func => execute func
  | .operator op left right => op.evaluate (left.evaluate execute) (right.evaluate execute)
  | .operatorNot left => (left.evaluate execute).map notValue

/-- `expression::evaluate`, of the root. -/
def ExpressionNode.holds (execute : F → Option V) (root : ExpressionNode V F) : Option Bool :=
  (root.evaluate execute).map fun v => !eq v zero

end Model

/-! ### Building the tree -/

section Build

variable {V F : Type*}

/-- `get_function`. -/
def OperandSource.getFunction (env : OperandSource V F) (name : String) :
    Except String (ExpressionNode V F) :=
  match env.queryFunction name with
  | some func => .ok (.function func)
  | none => .error "function does not exist"

/-- `make_operand`. -/
def OperandSource.makeOperand (env : OperandSource V F) (token : Token) :
    Except String (ExpressionNode V F) :=
  match token.type with
  | .operandConstant =>
    match env.stod token.text with
    | some value => .ok (.constant value)
    | none => .error "stod"
  | .operandEnum =>
    match env.tryRowIntValue token.text with
    | some value => .ok (.enum (env.ofInt value))
    | none => env.getFunction token.text
  | _ => env.getFunction token.text

/-- `make_operator`, for the operators with two arguments. -/
def makeOperator : NodeType → Except String Operator
  | .operatorAnd => .ok .and
  | .operatorOr => .ok .or
  | .operatorEqual => .ok .equal
  | .operatorGt => .ok .greaterThan
  | .operatorGte => .ok .greaterThanEqual
  | .operatorLt => .ok .lessThan
  | .operatorLte => .ok .lessThanEqual
  | .operatorNotEqual => .ok .notEqual
  | _ => .error "node_type_enum is not operator"

/-- The loop on an operator in `shuting_yards`: operators that bind tighter, or as tight if
the operator is left associative, go from the stack to the queue. -/
def popOperators (token : Token) : List Token → List Token → List Token × List Token
  | [], queue => ([], queue)
  | top :: stack, queue =>
    if top.type ≠ .operatorLeftBraket then
      if top.type.getPriority > token.type.getPriority ∨
          token.type.isLeftAssoc ∧ top.type.getPriority = token.type.getPriority then
        popOperators token stack (queue ++ [top])
      else (top :: stack, queue)
    else (top :: stack, queue)

/-- The loop on a right bracket: everything above the left bracket goes to the queue, and
the bracket is taken off. -/
def popToBraket : List Token → List Token → Except String (List Token × List Token)
  | [], _ => .error "mismatched parentheses"
  | top :: stack, queue =>
    if top.type ≠ .operatorLeftBraket then popToBraket stack (queue ++ [top])
    else .ok (stack, queue)

/-- One token in `shuting_yards`, on the stack and the queue. -/
def shutingYard (token : Token) (stack queue : List Token) :
    Except String (List Token × List Token) :=
  match token.type with
  | .operandConstant | .operandEnum | .operandFunction => .ok (stack, queue ++ [token])
  | .operatorAnd | .operatorOr | .operatorEqual | .operatorGt | .operatorGte | .operatorLt
  | .operatorLte | .operatorNotEqual | .operatorNot =>
    let r := popOperators token stack queue
    .ok (token :: r.1, r.2)
  | .operatorLeftBraket => .ok (token :: stack, queue)
  | .operatorRightBraket => popToBraket stack queue
  | .operandNone => .ok (stack, queue)

/-- The loop over the tokens. -/
def shutingYardLoop : List Token → List Token → List Token →
    Except String (List Token × List Token)
  | [], stack, queue => .ok (stack, queue)
  | token :: tokens, stack, queue =>
    match shutingYard token stack queue with
    | .ok (stack, queue) => shutingYardLoop tokens stack queue
    | .error e => .error e

/-- The operators left on the stack at the end go to the queue. -/
def drainStack : List Token → List Token → Except String (List Token)
  | [], queue => .ok queue
  | top :: stack, queue =>
    if top.type = .operatorLeftBraket ∨ top.type = .operatorRightBraket then
      .error "mismatched parentheses"
    else drainStack stack (queue ++ [top])

/-- `shuting_yards`: the queue. The stack is empty at the end. -/
def shutingYards (tokens : List Token) : Except String (List Token) :=
  if tokens = [] then .error "Tokens vector is empty!"
  else match shutingYardLoop tokens [] [] with
    | .ok (stack, queue) => drainStack stack queue
    | .error e => .error e

/-- One token of the queue in `build_parse_tree`, on the stack of nodes. -/
def buildNode (env : OperandSource V F) (token : Token) (nodes : List (ExpressionNode V F)) :
    Except String (List (ExpressionNode V F)) :=
  match token.type with
  | .operandConstant | .operandEnum | .operandFunction =>
    match env.makeOperand token with
    | .ok node => .ok (node :: nodes)
    | .error e => .error e
  | .operatorAnd | .operatorOr | .operatorEqual | .operatorGt | .operatorGte | .operatorLt
  | .operatorLte | .operatorNotEqual =>
    match nodes with
    | param1 :: param2 :: nodes =>
      match makeOperator token.type with
      | .ok op => .ok (.operator op param2 param1 :: nodes)
      | .error e => .error e
    | _ => .error "The user has not input sufficient values in the expression"
  | .operatorNot =>
    match nodes with
    | param1 :: nodes => .ok (.operatorNot param1 :: nodes)
    | _ => .error "The user has not input sufficient values in the expression"
  | .operatorLeftBraket | .operatorRightBraket => .error "mismatched parentheses"
  -- such a token is never on the queue
  | .operandNone => .ok nodes

/-- The loop over the queue. -/
def buildNodes (env : OperandSource V F) : List Token → List (ExpressionNode V F) →
    Except String (List (ExpressionNode V F))
  | [], nodes => .ok nodes
  | token :: queue, nodes =>
    match buildNode env token nodes with
    | .ok nodes => buildNodes env queue nodes
    | .error e => .error e

/-- `build_parse_tree`: the root. -/
def buildParseTree (env : OperandSource V F) (tokens : List Token) :
    Except String (ExpressionNode V F) :=
  match shutingYards tokens with
  | .ok queue =>
    match buildNodes env queue [] with
    | .ok [root] => .ok root
    | .ok _ => .error "The user has not input sufficient values in the expression"
    | .error e => .error e
  | .error e => .error e

end Build

end UtilityFramework
