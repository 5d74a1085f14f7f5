import TinyC.Numeral.Decimal
import TinyC.Program
import TinyC.Text.Outline
import TinyC.Text.Quoted

/-!
# The outline of a program

The tree of a program, for reading.
-/

namespace TinyC

open Text (Outline quoted)

def Ty.outline : Ty → Outline
  | .int => .leaf "Int"
  | .float => .leaf "Float"

def ArithOp.outline : ArithOp → Outline
  | .add => .leaf "Add"
  | .sub => .leaf "Sub"
  | .mul => .leaf "Mul"
  | .div => .leaf "Div"
  | .rem => .leaf "Rem"

def CompareOp.outline : CompareOp → Outline
  | .lt => .leaf "Lt"
  | .le => .leaf "Le"
  | .gt => .leaf "Gt"
  | .ge => .leaf "Ge"
  | .eq => .leaf "Eq"
  | .ne => .leaf "Ne"

def LogicOp.outline : LogicOp → Outline
  | .and => .leaf "And"
  | .or => .leaf "Or"

/-- The family of an operator, and the operator itself. -/
def Operator.outline : Operator → String × Outline
  | .arith op => ("Binary", op.outline)
  | .compare op => ("Relational", op.outline)
  | .logic op => ("Logical", op.outline)

def Expr.outline : Expr → Outline
  | .int n => .apply "Literal" [.apply "Int" [.leaf (toString n.toNat)]]
  | .float x => .apply "Literal" [.apply "Float" [.leaf x.text]]
  | .var name => .apply "Literal" [.apply "Id" [.leaf (quoted name)]]
  | .binary op lhs rhs =>
    .record op.outline.1 [("op", op.outline.2), ("lhs", lhs.outline), ("rhs", rhs.outline)]

def Decl.outline (d : Decl) : Outline :=
  .record "Declaration"
    [("ty", d.ty.outline), ("id", .leaf (quoted d.name)),
      ("initializer",
        match d.initial with
        | some e => .apply "Some" [e.outline]
        | none => .leaf "None")]

def Assign.outline (a : Assign) : Outline :=
  .record "Assignment" [("id", .leaf (quoted a.name)), ("value", a.value.outline)]

mutual

def Stmt.outline : Stmt → Outline
  | .decl d => .apply "Declaration" [d.outline]
  | .assign a => .apply "Assignment" [a.outline]
  | .ifThen cond body => .record "If" [("cond", cond.outline), ("body", .list (outlines body))]
  | .ifElse cond thenBody elseBody =>
    .record "IfElse"
      [("cond", cond.outline), ("then_body", .list (outlines thenBody)),
        ("else_body", .list (outlines elseBody))]
  | .while_ cond body =>
    .record "While" [("cond", cond.outline), ("body", .list (outlines body))]
  | .for_ init cond step body =>
    .record "For"
      [("init", init.outline), ("cond", cond.outline), ("step", step.outline),
        ("body", .list (outlines body))]
  | .block body => .apply "Block" [.list (outlines body)]
  | .empty => .leaf "Empty"

def outlines : List Stmt → List Outline
  | [] => []
  | s :: body => s.outline :: outlines body

end

def Program.outline (p : Program) : Outline :=
  .record "Program"
    [("name", .leaf (quoted p.name)), ("declarations", .list (p.declarations.map Decl.outline)),
      ("statements", .list (outlines p.statements))]

end TinyC
