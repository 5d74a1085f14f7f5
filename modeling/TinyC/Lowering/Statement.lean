import TinyC.Lowering.Expression

/-!
# Lowering statements

A loop has a head, which evaluates its condition on every pass, a body, and an exit. The cursor is
at the end of the code emitted so far when a statement ends.
-/

namespace TinyC

open Ir.BuildM LowerM

/-! ## Declarations and assignments -/

/-- Make the slot of a variable and declare it, unless its name is taken. The name is looked up
before the slot is made, and the table looks it up again. -/
def LowerM.declare (name : String) (ty : Ty) : LowerM Ir.Slot := do
  match (← get).symbols.lookup? name with
  | some existing => throw (.semantic (.redeclared name existing.ty))
  | none =>
    let slot ← alloca name ty.slotTy
    match (← get).symbols.declare name ⟨slot, ty⟩ with
    | .error existing => throw (.semantic (.redeclared name existing.ty))
    | .ok symbols =>
      modify fun s => { s with symbols }
      return slot

namespace Decl

/-- The initial value may mention the variable itself. -/
def lower (d : Decl) : LowerM Unit := do
  let slot ← declare d.name d.ty
  if let some e := d.initial then e.lowerInto slot

def lowerAll : List Decl → LowerM Unit
  | [] => pure ()
  | d :: decls => do
    d.lower
    lowerAll decls

end Decl

/-- The variable is looked up before the value is evaluated. -/
def Assign.lower (a : Assign) : LowerM Unit := do
  match (← get).symbols.lookup? a.name with
  | some symbol => a.value.lowerInto symbol.slot
  | none => throw (.semantic (.undeclaredTarget a.name))

/-! ## Statements -/

/-- Build a loop. Its blocks are named after its kind, and the cursor ends behind it. -/
def LowerM.loop (kind : String) (cond : Expr) (body : LowerM Unit) : LowerM Unit := do
  let headBlock ← appendBlock (kind ++ ".head")
  let bodyBlock ← appendBlock (kind ++ ".body")
  let exitBlock ← appendBlock (kind ++ ".exit")
  branch headBlock
  moveTo headBlock
  condBranch (← cond.lowerTruth) bodyBlock exitBlock
  moveTo bodyBlock
  body
  fallInto headBlock
  moveTo exitBlock

namespace Stmt

mutual

def lower : Stmt → LowerM Unit
  | .decl d => d.lower
  | .assign a => a.lower
  | .ifThen cond body => do Ir.ifThen (← cond.lowerTruth) (lowerAll body)
  | .ifElse cond thenBody elseBody => do
    Ir.ifElse (← cond.lowerTruth) (lowerAll thenBody) (lowerAll elseBody)
  | .while_ cond body => loop "while" cond (lowerAll body)
  | .for_ init cond step body => do
    init.lower
    loop "for" cond do
      lowerAll body
      step.lower
  | .block body => lowerAll body
  | .empty => pure ()

def lowerAll : List Stmt → LowerM Unit
  | [] => pure ()
  | s :: body => do
    s.lower
    lowerAll body

end

end Stmt

/-! ## Programs -/

/-- Lower a program into one function, which returns zero. -/
def Program.lower (p : Program) : LowerM Unit := do
  moveTo (← appendBlock "entry")
  Decl.lowerAll p.declarations
  Stmt.lowerAll p.statements
  ret (some (.int 0))

end TinyC
