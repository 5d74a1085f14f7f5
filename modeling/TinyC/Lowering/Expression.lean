import TinyC.Lowering.Basic

/-!
# Lowering expressions

An expression leaves one operand on the stack. Arithmetic and comparisons are done in floats as
soon as one operand is a float, and both sides of a logical operator are evaluated.
-/

namespace TinyC

open Ir (Value)
open Ir.BuildM LowerM

/-! ## Operators -/

def ArithOp.intOpcode : ArithOp → Ir.Opcode
  | .add => .add
  | .sub => .sub
  | .mul => .mul
  | .div => .sdiv
  | .rem => .srem

def ArithOp.floatOpcode : ArithOp → Ir.Opcode
  | .add => .fadd
  | .sub => .fsub
  | .mul => .fmul
  | .div => .fdiv
  | .rem => .frem

def CompareOp.intPredicate : CompareOp → Ir.IntPredicate
  | .lt => .slt
  | .le => .sle
  | .gt => .sgt
  | .ge => .sge
  | .eq => .eq
  | .ne => .ne

def CompareOp.floatPredicate : CompareOp → Ir.FloatPredicate
  | .lt => .olt
  | .le => .ole
  | .gt => .ogt
  | .ge => .oge
  | .eq => .oeq
  | .ne => .one

def LogicOp.opcode : LogicOp → Ir.Opcode
  | .and => .and
  | .or => .or

/-- Two operands of arithmetic in a common type: both floats, or both integers. -/
def LowerM.balance (lhs rhs : Value) : LowerM (Value × Value) := do
  let lhs ← promote lhs
  let rhs ← promote rhs
  if lhs.ty.isFloat || rhs.ty.isFloat then
    let lhs ← convert lhs .f32
    let rhs ← convert rhs .f32
    return (lhs, rhs)
  else return (lhs, rhs)

/-- Apply an operator to two values. -/
def Operator.lower (lhs rhs : Value) : Operator → LowerM Value
  | .arith op => do
    let (lhs, rhs) ← balance lhs rhs
    binary (if lhs.ty.isFloat then op.floatOpcode else op.intOpcode) lhs rhs
  | .compare op => do
    let (lhs, rhs) ← balance lhs rhs
    if lhs.ty.isFloat then fcmp op.floatPredicate lhs rhs
    else icmp op.intPredicate lhs rhs
  | .logic op => do
    let lhs ← truth lhs
    let rhs ← truth rhs
    binary op.opcode lhs rhs

/-! ## Expressions -/

namespace Expr

/-- Push the operand that an expression yields. Integer constants wrap to 32 bits and float
constants are rounded to the narrower format. -/
def lower : Expr → LowerM Unit
  | .int n => push (.value (.int n.toUInt32.toInt32))
  | .float x => push (.value (.float x.narrow))
  | .var name => do
    match (← get).symbols.lookup? name with
    | some symbol => push (.storage symbol.slot)
    | none => throw (.semantic (.undeclaredUse name))
  | .binary op lhs rhs => do
    lhs.lower
    rhs.lower
    let (lhs, rhs) ← popPair
    push (.value (← op.lower lhs rhs))

/-- The truth value of an expression. -/
def lowerTruth (e : Expr) : LowerM Value := do
  e.lower
  truth (← popValue)

/-- Store an expression in a slot, in the type of the slot. -/
def lowerInto (e : Expr) (slot : Ir.Slot) : LowerM Unit := do
  e.lower
  let value ← convert (← popValue) slot.ty
  store value slot

end Expr

end TinyC
