import TinyC.Error
import TinyC.Ir.Builder
import TinyC.Lowering.Symbols

/-!
# The state of lowering

Lowering walks a program and emits instructions through a builder. It keeps the variables declared
so far and a stack of operands. A variable is pushed as its slot, and loaded only when its value is
needed.

`LowerM` keeps the state when a step fails, so that what a failed step has emitted, declared or
pushed can be seen.
-/

namespace TinyC

open Ir (Value Slot)

inductive Operand
  | value (value : Value)
  /-- A value still in memory. -/
  | storage (slot : Slot)
deriving DecidableEq, Repr

structure Lowering where
  builder : Ir.Builder
  symbols : SymbolTable
  /-- The operands not yet consumed, latest first. -/
  stack : List Operand

/-- Steps of lowering, which keep the state when they fail. -/
abbrev LowerM := EStateM Error Lowering

/-- The state before lowering the function of a name. -/
def Lowering.new (name : String) : Lowering := ⟨.new name .i32, .empty, []⟩

/-- The finished function; every operand must have been consumed. -/
def Lowering.finish (s : Lowering) : Except Error Ir.Function :=
  if s.stack.isEmpty then .ok s.builder.function
  else .error (.internal (.operandsLeft s.stack.length))

/-- The type of the slot of a variable. -/
def Ty.slotTy : Ty → Ir.Ty
  | .int => .i32
  | .float => .f32

namespace LowerM

/-- Use the builder. -/
def build {α : Type} (x : Ir.BuildM α) : LowerM α := fun s =>
  match x s.builder with
  | .ok a builder => .ok a { s with builder }
  | .error e builder => .error (.invalidIr e) { s with builder }

end LowerM

instance : MonadLift Ir.BuildM LowerM := ⟨LowerM.build⟩

namespace LowerM

open Ir.BuildM

/-! ## Operands -/

def push (operand : Operand) : LowerM Unit :=
  modify fun s => { s with stack := operand :: s.stack }

def pop : LowerM Operand := do
  match (← get).stack with
  | [] => throw (.internal .stackUnderflow)
  | operand :: stack =>
    modify fun s => { s with stack }
    return operand

/-- The value of an operand, loaded if it is still in memory. -/
def fetch : Operand → LowerM Value
  | .value v => return v
  | .storage slot => load slot

def popValue : LowerM Value := do fetch (← pop)

/-- The two topmost operands as values. The right one is on top, and the left one is loaded
first. -/
def popPair : LowerM (Value × Value) := do
  let rhs ← pop
  let lhs ← pop
  let lhs ← fetch lhs
  let rhs ← fetch rhs
  return (lhs, rhs)

/-! ## Conversions -/

/-- Whether a value differs from zero. Constants are folded; what is not a number does differ. -/
def truth : Value → LowerM Value
  | .int n => return .bool (n ≠ 0)
  | .float x => return .bool (!x.isZero)
  | .bool b => return .bool b
  | .reg r =>
    match r.ty with
    | .i1 => return .reg r
    | .i32 => icmp .ne (.reg r) (.int 0)
    | .f32 => fcmp .one (.reg r) (.float .zero)

/-- A value in another type. Constants are folded. -/
def convert (value : Value) (ty : Ir.Ty) : LowerM Value :=
  if value.ty = ty then return value
  else
    match ty, value with
    | .i1, v => truth v
    | .i32, .float x => return .int x.toInt32
    | .i32, .bool b => return .int (if b then 1 else 0)
    | .i32, v => cast (if v.ty = .i1 then .zext else .fptosi) v .i32
    | .f32, .int n => return .float (.ofInt n.toInt)
    | .f32, .bool b => return .float (if b then .one else .zero)
    | .f32, v => cast (if v.ty = .i1 then .uitofp else .sitofp) v .f32

/-- Truth values take part in arithmetic as the integers zero and one. -/
def promote (value : Value) : LowerM Value :=
  if value.ty = .i1 then convert value .i32 else return value

end LowerM

end TinyC
