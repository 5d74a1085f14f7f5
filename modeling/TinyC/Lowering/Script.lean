import TinyC.Ir.Script
import TinyC.Lowering.Statement

/-!
# Scripts of lowering steps

A history of calls on a symbol table, or on the whole state of lowering, as data. A failed step does
not stop a script, and leaves behind what it had done.
-/

namespace TinyC

/-! ## Symbol tables -/

inductive SymbolCommand
  | declare (name : String) (symbol : Symbol)
  | lookup (name : String)
  | contains (name : String)

inductive SymbolOutcome
  | declared
  /-- The name was taken by a variable. -/
  | existing (symbol : Symbol)
  | found (symbol : Option Symbol)
  | flag (flag : Bool)

def SymbolCommand.run (t : SymbolTable) : SymbolCommand → SymbolOutcome × SymbolTable
  | .declare name symbol =>
    match t.declare name symbol with
    | .ok t => (.declared, t)
    | .error existing => (.existing existing, t)
  | .lookup name => (.found (t.lookup? name), t)
  | .contains name => (.flag (t.contains name), t)

/-- Run all commands, and give back each outcome with the table behind it. -/
def runSymbolScript : List SymbolCommand → SymbolTable → List (SymbolOutcome × SymbolTable)
  | [], _ => []
  | command :: commands, t =>
    let (outcome, t) := command.run t
    (outcome, t) :: runSymbolScript commands t

/-! ## Lowering -/

inductive LowerCommand
  | symbols (command : SymbolCommand)
  | build (command : Ir.Command)
  | push (operand : Operand)
  | pop
  | popValue
  | popPair
  | fetch (operand : Operand)
  | slotTy (ty : Ty)
  | convert (value : Ir.Value) (ty : Ir.Ty)
  | truth (value : Ir.Value)
  | promote (value : Ir.Value)
  | expr (e : Expr)
  | truthOf (e : Expr)
  | stmt (s : Stmt)
  | body (body : List Stmt)
  | decl (d : Decl)
  | assign (a : Assign)
  | program (p : Program)
  /-- Fail with the given error. -/
  | reject (error : SemanticError)

inductive LowerOutcome
  | done
  | symbols (outcome : SymbolOutcome)
  | built (outcome : Ir.Outcome)
  | operand (operand : Operand)
  | value (value : Ir.Value)
  | pair (lhs rhs : Ir.Value)
  | ty (ty : Ir.Ty)
  | failed (error : Error)

namespace LowerCommand

/-- The steps that a command stands for. -/
def perform : LowerCommand → LowerM LowerOutcome
  | .symbols command => modifyGet fun s =>
    let (outcome, table) := command.run s.symbols
    (.symbols outcome, { s with symbols := table })
  | .build command => modifyGet fun s =>
    let (outcome, builder) := command.run s.builder
    (.built outcome, { s with builder })
  | .push operand => do LowerM.push operand; return .done
  | .pop => return .operand (← LowerM.pop)
  | .popValue => return .value (← LowerM.popValue)
  | .popPair => do
    let (lhs, rhs) ← LowerM.popPair
    return .pair lhs rhs
  | .fetch operand => return .value (← LowerM.fetch operand)
  | .slotTy ty => return .ty ty.slotTy
  | .convert value ty => return .value (← LowerM.convert value ty)
  | .truth value => return .value (← LowerM.truth value)
  | .promote value => return .value (← LowerM.promote value)
  | .expr e => do e.lower; return .done
  | .truthOf e => return .value (← e.lowerTruth)
  | .stmt s => do s.lower; return .done
  | .body stmts => do Stmt.lowerAll stmts; return .done
  | .decl d => do d.lower; return .done
  | .assign a => do a.lower; return .done
  | .program p => do p.lower; return .done
  | .reject error => throw (.semantic error)

def run (command : LowerCommand) (s : Lowering) : LowerOutcome × Lowering :=
  match command.perform s with
  | .ok outcome s => (outcome, s)
  | .error e s => (.failed e, s)

end LowerCommand

/-- Run all commands, and give back each outcome with the state behind it. -/
def runLowerScript : List LowerCommand → Lowering → List (LowerOutcome × Lowering)
  | [], _ => []
  | command :: commands, s =>
    let (outcome, s) := command.run s
    (outcome, s) :: runLowerScript commands s

end TinyC
