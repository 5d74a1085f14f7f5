import TinyC.Numeral.Binary

/-!
# The intermediate representation

A function is a list of basic blocks. A block is a list of instructions and, once it is sealed, a
terminator, which names the blocks that control passes to. Variables live in stack slots; every
other intermediate result is a register.
-/

namespace TinyC.Ir

inductive Ty
  | i1
  | i32
  | f32
deriving DecidableEq, Repr

def Ty.isFloat : Ty → Bool
  | .f32 => true
  | _ => false

/-! ## Values -/

/-- A register, which holds the result of one instruction. -/
structure Reg where
  name : String
  ty : Ty
deriving DecidableEq, Repr

/-- A stack slot, given by the type of what it stores. -/
structure Slot where
  name : String
  ty : Ty
deriving DecidableEq, Repr

inductive Value
  | int (n : Int32)
  | float (x : Binary32)
  | bool (b : Bool)
  | reg (reg : Reg)
deriving DecidableEq, Repr

def Value.ty : Value → Ty
  | .int _ => .i32
  | .float _ => .f32
  | .bool _ => .i1
  | .reg r => r.ty

/-! ## Instructions -/

inductive Opcode
  | add | sub | mul | sdiv | srem
  | fadd | fsub | fmul | fdiv | frem
  | and | or
deriving DecidableEq, Repr

/-- Predicates on signed integers. -/
inductive IntPredicate
  | eq | ne | slt | sle | sgt | sge
deriving DecidableEq, Repr

/-- Ordered predicates on floats: none holds if an operand is not a number. -/
inductive FloatPredicate
  | oeq | one | olt | ole | ogt | oge
deriving DecidableEq, Repr

inductive CastOp
  | sitofp | fptosi | zext | uitofp
deriving DecidableEq, Repr

inductive Instr
  | alloca (dest : Slot)
  | load (dest : Reg) (src : Slot)
  | store (value : Value) (dest : Slot)
  | binary (dest : Reg) (op : Opcode) (lhs rhs : Value)
  | icmp (dest : Reg) (pred : IntPredicate) (lhs rhs : Value)
  | fcmp (dest : Reg) (pred : FloatPredicate) (lhs rhs : Value)
  | cast (dest : Reg) (op : CastOp) (value : Value)
deriving DecidableEq, Repr

/-- What ends a block. -/
inductive Terminator
  | br (target : String)
  | condBr (cond : Value) (thenTarget elseTarget : String)
  | ret (value : Option Value)
deriving DecidableEq, Repr

/-- The names of the blocks that control may pass to. -/
def Terminator.targets : Terminator → List String
  | .br target => [target]
  | .condBr _ thenTarget elseTarget => [thenTarget, elseTarget]
  | .ret _ => []

/-! ## Blocks, functions, modules -/

structure Block where
  name : String
  instrs : List Instr
  terminator : Option Terminator
deriving DecidableEq, Repr

structure Function where
  name : String
  ret : Ty
  blocks : List Block
deriving DecidableEq, Repr

namespace Function

/-- The first block of a name. -/
def block? (f : Function) (name : String) : Option Block :=
  f.blocks.find? (·.name = name)

/-- The instructions of all blocks, in order. -/
def instructions (f : Function) : List Instr := f.blocks.flatMap (·.instrs)

def blockNames (f : Function) : List String := f.blocks.map (·.name)

end Function

structure Module where
  name : String
  functions : List Function
deriving DecidableEq, Repr

/-- The first function of a name. -/
def Module.function? (m : Module) (name : String) : Option Function :=
  m.functions.find? (·.name = name)

end TinyC.Ir
