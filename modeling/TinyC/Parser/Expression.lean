import TinyC.Parser.Terminal
import TinyC.Program

/-!
# Reading an expression token by token

Operators bind by level, from `||` at the bottom to `*`, `/` and `%` at the top, and associate to
the left. The state of a half-read expression is what is still open around it: left operands that
wait for their right one, and parentheses that wait to be closed, innermost first.
-/

namespace TinyC

/-! ## Operators -/

namespace Operator

/-- How tightly an operator binds. -/
def level : Operator → Nat
  | .logic .or => 0
  | .logic .and => 1
  | .compare .eq | .compare .ne => 2
  | .compare _ => 3
  | .arith .add | .arith .sub => 4
  | .arith _ => 5

def ofPunct? : Punct → Option Operator
  | .orOr => some (.logic .or)
  | .andAnd => some (.logic .and)
  | .eqEq => some (.compare .eq)
  | .ne => some (.compare .ne)
  | .lt => some (.compare .lt)
  | .le => some (.compare .le)
  | .gt => some (.compare .gt)
  | .ge => some (.compare .ge)
  | .plus => some (.arith .add)
  | .minus => some (.arith .sub)
  | .star => some (.arith .mul)
  | .slash => some (.arith .div)
  | .percent => some (.arith .rem)
  | _ => none

end Operator

/-! ## Half-read expressions -/

/-- Something open around the operand being read. -/
inductive Pending
  /-- An operator that waits for its right operand. -/
  | left (lhs : Expr) (op : Operator)
  /-- A parenthesis that waits to be closed. -/
  | paren
deriving DecidableEq, Repr

/-- Give `e` to the operators that bind at least as tightly as `level`. -/
def reduce (level : Nat) : List Pending → Expr → List Pending × Expr
  | .left lhs op :: pending, e =>
    if level ≤ op.level then reduce level pending (.binary op lhs e)
    else (.left lhs op :: pending, e)
  | pending, e => (pending, e)

/-- The state of a half-read expression. -/
inductive ExprState
  /-- An operand must come. -/
  | operand (pending : List Pending)
  /-- An operand is complete; an operator may come, or a closing parenthesis. -/
  | operator (pending : List Pending) (e : Expr)
deriving DecidableEq, Repr

namespace ExprState

/-- The state before the first token. -/
def start : ExprState := .operand []

/-- Take one token, unless it cannot continue the expression. -/
def feed : ExprState → Token → Option ExprState
  | .operand pending, .int n => some (.operator pending (.int n))
  | .operand pending, .float x => some (.operator pending (.float x))
  | .operand pending, .ident name => some (.operator pending (.var name))
  | .operand pending, .punct .lparen => some (.operand (.paren :: pending))
  | .operand _, _ => none
  | .operator pending e, .punct .rparen =>
    match reduce 0 pending e with
    | (.paren :: pending, e) => some (.operator pending e)
    | _ => none
  | .operator pending e, .punct p =>
    (Operator.ofPunct? p).map fun op =>
      let (pending, e) := reduce op.level pending e
      .operand (.left e op :: pending)
  | .operator _ _, _ => none

/-- The expression read, if it is complete. -/
def result? : ExprState → Option Expr
  | .operand _ => none
  | .operator pending e =>
    match reduce 0 pending e with
    | ([], e) => some e
    | _ => none

/-- Whether an operand has just been completed. -/
def isOperator : ExprState → Bool
  | .operand _ => false
  | .operator .. => true

end ExprState

end TinyC
