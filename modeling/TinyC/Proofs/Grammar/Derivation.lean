import TinyC.Program
import TinyC.Token

/-!
# The grammar

A derivation is a tree with one constructor for each production. Its tokens are what it derives,
and its value is what the program text means by them.

Expressions come in layers, loosest binding first. All layers but the last two are alike: a layer
is an operand of the next layer, or one of its own operators between a left operand of the same
layer and a right operand of the next one.

Statements are open or closed. An open statement ends in an `if` that could still take an `else`,
and only a closed one stands before an `else`.
-/

namespace TinyC.Grammar

/-! ## Expressions -/

/-- The nonterminals of expressions. -/
inductive Layer
  | expression | conjunction | equality | relation | addition | term | factor | primary
deriving DecidableEq, Repr

namespace Layer

/-- The layer that operands are taken from. -/
def operand? : Layer → Option Layer
  | .expression => some .conjunction
  | .conjunction => some .equality
  | .equality => some .relation
  | .relation => some .addition
  | .addition => some .term
  | .term => some .factor
  | .factor => some .primary
  | .primary => none

/-- The operators of a layer, as they are written and what they mean. -/
def operators : Layer → List (Punct × Operator)
  | .expression => [(.orOr, .logic .or)]
  | .conjunction => [(.andAnd, .logic .and)]
  | .equality => [(.eqEq, .compare .eq), (.ne, .compare .ne)]
  | .relation =>
    [(.lt, .compare .lt), (.le, .compare .le), (.gt, .compare .gt), (.ge, .compare .ge)]
  | .addition => [(.plus, .arith .add), (.minus, .arith .sub)]
  | .term => [(.star, .arith .mul), (.slash, .arith .div), (.percent, .arith .rem)]
  | .factor | .primary => []

end Layer

/-- The derivations of a layer. -/
inductive ExprTree : Layer → Type
  | binary {l m : Layer} (p : Punct) (op : Operator) (hop : (p, op) ∈ l.operators)
    (hm : l.operand? = some m) (lhs : ExprTree l) (rhs : ExprTree m) : ExprTree l
  | operand {l m : Layer} (hm : l.operand? = some m) (e : ExprTree m) : ExprTree l
  | paren (e : ExprTree .expression) : ExprTree .factor
  | int (n : UInt64) : ExprTree .primary
  | float (x : Binary64) : ExprTree .primary
  | ident (name : String) : ExprTree .primary

namespace ExprTree

def tokens {l : Layer} : ExprTree l → List Token
  | .binary p _ _ _ lhs rhs => lhs.tokens ++ .punct p :: rhs.tokens
  | .operand _ e => e.tokens
  | .paren e => .punct .lparen :: (e.tokens ++ [.punct .rparen])
  | .int n => [.int n]
  | .float x => [.float x]
  | .ident name => [.ident name]

def value {l : Layer} : ExprTree l → Expr
  | .binary _ op _ _ lhs rhs => .binary op lhs.value rhs.value
  | .operand _ e => e.value
  | .paren e => e.value
  | .int n => .int n
  | .float x => .float x
  | .ident name => .var name

end ExprTree

/-- The derivations of a whole expression. -/
abbrev ExpressionTree := ExprTree .expression

/-! ## Declarations and assignments -/

/-- A type as it is written. -/
def typeToken : Ty → Token
  | .int => .keyword .int
  | .float => .keyword .float

/-- `ty name;` or `ty name = initial;` -/
structure DeclTree where
  ty : Ty
  name : String
  initial : Option ExpressionTree

namespace DeclTree

/-- An initial value as it is written. -/
def initialTokens : Option ExpressionTree → List Token
  | none => []
  | some e => .punct .assign :: e.tokens

def tokens (d : DeclTree) : List Token :=
  typeToken d.ty :: .ident d.name :: (initialTokens d.initial ++ [.punct .semicolon])

def value (d : DeclTree) : Decl := ⟨d.ty, d.name, d.initial.map ExprTree.value⟩

end DeclTree

/-- `name = expr` -/
structure AssignTree where
  name : String
  expr : ExpressionTree

namespace AssignTree

def tokens (a : AssignTree) : List Token := .ident a.name :: .punct .assign :: a.expr.tokens

def value (a : AssignTree) : Assign := ⟨a.name, a.expr.value⟩

end AssignTree

/-- `for (init cond; step)` -/
structure ForHead where
  init : DeclTree
  cond : ExpressionTree
  step : AssignTree

def ForHead.tokens (h : ForHead) : List Token :=
  .keyword .for_ :: .punct .lparen ::
    (h.init.tokens ++ (h.cond.tokens ++ .punct .semicolon :: (h.step.tokens ++ [.punct .rparen])))

/-! ## Statements -/

/-- The nonterminals of statements, and lists of statements. -/
inductive Form
  | statement | opened | closed | simple | list
deriving DecidableEq, Repr

/-- The forms that `else` may follow. -/
def Form.Closed : Form → Prop
  | .closed | .simple => True
  | .statement | .opened | .list => False

abbrev Form.Value : Form → Type
  | .list => List Stmt
  | _ => Stmt

/-- `word (cond)` -/
def condTokens (word : Keyword) (cond : ExpressionTree) : List Token :=
  .keyword word :: .punct .lparen :: (cond.tokens ++ [.punct .rparen])

/-- The derivations of a form. -/
inductive StmtTree : Form → Type
  | ofOpen (s : StmtTree .opened) : StmtTree .statement
  | ofClosed (s : StmtTree .closed) : StmtTree .statement
  | openIf (cond : ExpressionTree) (body : StmtTree .statement) : StmtTree .opened
  | openIfElse (cond : ExpressionTree) (thenArm : StmtTree .closed) (elseArm : StmtTree .opened) :
    StmtTree .opened
  | openWhile (cond : ExpressionTree) (body : StmtTree .opened) : StmtTree .opened
  | openFor (head : ForHead) (body : StmtTree .opened) : StmtTree .opened
  | ofSimple (s : StmtTree .simple) : StmtTree .closed
  | closedIfElse (cond : ExpressionTree) (thenArm elseArm : StmtTree .closed) : StmtTree .closed
  | closedWhile (cond : ExpressionTree) (body : StmtTree .closed) : StmtTree .closed
  | closedFor (head : ForHead) (body : StmtTree .closed) : StmtTree .closed
  | assign (a : AssignTree) : StmtTree .simple
  | decl (d : DeclTree) : StmtTree .simple
  | block (body : StmtTree .list) : StmtTree .simple
  | empty : StmtTree .simple
  | nil : StmtTree .list
  | cons (s : StmtTree .statement) (body : StmtTree .list) : StmtTree .list

namespace StmtTree

def tokens {k : Form} : StmtTree k → List Token
  | .ofOpen s | .ofClosed s | .ofSimple s => s.tokens
  | .openIf cond body => condTokens .if_ cond ++ body.tokens
  | .openIfElse cond thenArm elseArm | .closedIfElse cond thenArm elseArm =>
    condTokens .if_ cond ++ (thenArm.tokens ++ .keyword .else_ :: elseArm.tokens)
  | .openWhile cond body | .closedWhile cond body => condTokens .while_ cond ++ body.tokens
  | .openFor head body | .closedFor head body => head.tokens ++ body.tokens
  | .assign a => a.tokens ++ [.punct .semicolon]
  | .decl d => d.tokens
  | .block body => .punct .lbrace :: (body.tokens ++ [.punct .rbrace])
  | .empty => [.punct .semicolon]
  | .nil => []
  | .cons s body => s.tokens ++ body.tokens

def value {k : Form} : StmtTree k → k.Value
  | .ofOpen s | .ofClosed s | .ofSimple s => s.value
  | .openIf cond body => Stmt.ifThen cond.value (Stmt.toBody body.value)
  | .openIfElse cond thenArm elseArm | .closedIfElse cond thenArm elseArm =>
    Stmt.ifElse cond.value (Stmt.toBody thenArm.value) (Stmt.toBody elseArm.value)
  | .openWhile cond body | .closedWhile cond body =>
    Stmt.while_ cond.value (Stmt.toBody body.value)
  | .openFor head body | .closedFor head body =>
    Stmt.for_ head.init.value head.cond.value head.step.value (Stmt.toBody body.value)
  | .assign a => Stmt.assign a.value
  | .decl d => Stmt.decl d.value
  | .block body => Stmt.block body.value
  | .empty => Stmt.empty
  | .nil => []
  | .cons s body => List.cons (α := Stmt) s.value body.value

/-! ### Control statements

A control statement is open exactly if the statement it ends in is. -/

def ifElse (cond : ExpressionTree) (thenArm : StmtTree .closed) :
    StmtTree .statement → StmtTree .statement
  | .ofOpen s => .ofOpen (.openIfElse cond thenArm s)
  | .ofClosed s => .ofClosed (.closedIfElse cond thenArm s)

def while_ (cond : ExpressionTree) : StmtTree .statement → StmtTree .statement
  | .ofOpen s => .ofOpen (.openWhile cond s)
  | .ofClosed s => .ofClosed (.closedWhile cond s)

def for_ (head : ForHead) : StmtTree .statement → StmtTree .statement
  | .ofOpen s => .ofOpen (.openFor head s)
  | .ofClosed s => .ofClosed (.closedFor head s)

section

variable (cond : ExpressionTree) (head : ForHead) (thenArm : StmtTree .closed)
  (s : StmtTree .statement)

@[simp] theorem tokens_ifElse : (ifElse cond thenArm s).tokens =
    condTokens .if_ cond ++ (thenArm.tokens ++ .keyword .else_ :: s.tokens) := by
  cases s <;> rfl

@[simp] theorem tokens_while : (while_ cond s).tokens = condTokens .while_ cond ++ s.tokens := by
  cases s <;> rfl

@[simp] theorem tokens_for : (for_ head s).tokens = head.tokens ++ s.tokens := by
  cases s <;> rfl

@[simp] theorem value_ifElse : (ifElse cond thenArm s).value =
    Stmt.ifElse cond.value (Stmt.toBody thenArm.value) (Stmt.toBody s.value) := by
  cases s <;> rfl

@[simp] theorem value_while : (while_ cond s).value =
    Stmt.while_ cond.value (Stmt.toBody s.value) := by
  cases s <;> rfl

@[simp] theorem value_for : (for_ head s).value =
    Stmt.for_ head.init.value head.cond.value head.step.value (Stmt.toBody s.value) := by
  cases s <;> rfl

end

end StmtTree

/-! ## Programs -/

/-- `int name() { body }` -/
structure ProgramTree where
  name : String
  body : StmtTree .list

namespace ProgramTree

def tokens (p : ProgramTree) : List Token :=
  .keyword .int :: .ident p.name :: .punct .lparen :: .punct .rparen :: .punct .lbrace ::
    (p.body.tokens ++ [.punct .rbrace])

def value (p : ProgramTree) : Program := .ofItems p.name p.body.value

end ProgramTree

end TinyC.Grammar
