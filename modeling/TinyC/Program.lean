import TinyC.Numeral.Binary

/-!
# Programs

A program is one function `int name() { ... }`. Its body is a list of statements, of which the
leading declarations are kept apart. The bodies of control statements are lists too: a block stands
for its statements and an empty statement for none.
-/

namespace TinyC

/-- The types of variables. -/
inductive Ty
  | int
  | float
deriving DecidableEq, Repr

def Ty.text : Ty → String
  | .int => "int"
  | .float => "float"

/-! ## Expressions -/

inductive ArithOp
  | add | sub | mul | div | rem
deriving DecidableEq, Repr

inductive CompareOp
  | lt | le | gt | ge | eq | ne
deriving DecidableEq, Repr

inductive LogicOp
  | and | or
deriving DecidableEq, Repr

/-- The binary operators. -/
inductive Operator
  | arith (op : ArithOp)
  | compare (op : CompareOp)
  | logic (op : LogicOp)
deriving DecidableEq, Repr

inductive Expr
  | int (value : UInt64)
  | float (value : Binary64)
  | var (name : String)
  | binary (op : Operator) (lhs rhs : Expr)
deriving DecidableEq, Repr

/-! ## Statements -/

structure Decl where
  ty : Ty
  name : String
  initial : Option Expr
deriving DecidableEq, Repr

structure Assign where
  name : String
  value : Expr
deriving DecidableEq, Repr

inductive Stmt
  | decl (decl : Decl)
  | assign (assign : Assign)
  | ifThen (cond : Expr) (body : List Stmt)
  | ifElse (cond : Expr) (thenBody elseBody : List Stmt)
  | while_ (cond : Expr) (body : List Stmt)
  /-- The step runs behind every pass through the body. -/
  | for_ (init : Decl) (cond : Expr) (step : Assign) (body : List Stmt)
  | block (body : List Stmt)
  | empty
deriving Repr

/-- The statements that a statement stands for as the body of a control statement. -/
def Stmt.toBody : Stmt → List Stmt
  | .block body => body
  | .empty => []
  | s => [s]

/-! ## Programs -/

structure Program where
  name : String
  /-- The declarations that lead the body. -/
  declarations : List Decl
  /-- The rest of the body, from the first statement that is no declaration. -/
  statements : List Stmt
deriving Repr

namespace Program

/-- Take the leading declarations off a list of statements. -/
def splitDecls : List Stmt → List Decl × List Stmt
  | .decl d :: rest =>
    let (decls, stmts) := splitDecls rest
    (d :: decls, stmts)
  | stmts => ([], stmts)

/-- The program with the given body. -/
def ofItems (name : String) (items : List Stmt) : Program :=
  let (declarations, statements) := splitDecls items
  { name, declarations, statements }

/-- The body of a program as one list. -/
def items (p : Program) : List Stmt := p.declarations.map .decl ++ p.statements

theorem splitDecls_append (items : List Stmt) :
    (splitDecls items).1.map Stmt.decl ++ (splitDecls items).2 = items := by
  fun_induction splitDecls items with
  | case1 d rest decls stmts h ih =>
    rw [h] at ih
    simp [ih]
  | case2 => rfl

@[simp] theorem items_ofItems (name : String) (stmts : List Stmt) :
    (ofItems name stmts).items = stmts :=
  splitDecls_append stmts

end Program

end TinyC
