import TinyC.Ir.Basic
import TinyC.Ir.Error
import TinyC.Ir.Names

/-!
# Building functions

A `Builder` holds a function under construction and a cursor, the block at whose end the next
instruction goes. Its operations run in `BuildM`, which keeps the builder when an operation fails:
a failed emission has used up its register number, and a conditional that fails half-way leaves the
blocks it has appended.
-/

namespace TinyC.Ir

/-- A handle to a block: its place among the blocks of the function. A handle may be known before
the block exists. -/
structure BlockId where
  index : Nat
deriving DecidableEq, Repr

structure Builder where
  function : Function
  /-- The block at whose end instructions go. -/
  current : Option BlockId
  /-- The names of blocks and slots. -/
  names : NameTable
  /-- The number of registers given out. -/
  temporaries : Nat

/-- Operations on a builder, which keep its state when they fail. -/
abbrev BuildM := EStateM Error Builder

namespace Builder

/-- A builder of a function without blocks. -/
def new (name : String) (ret : Ty) : Builder where
  function := { name, ret, blocks := [] }
  current := none
  names := .empty
  temporaries := 0

def blockName? (b : Builder) (block : BlockId) : Option String :=
  (b.function.blocks[block.index]?).map (·.name)

def currentBlock? (b : Builder) : Option Block :=
  b.current.bind fun block => b.function.blocks[block.index]?

/-- Whether the current block is sealed. -/
def isSealed (b : Builder) : Bool :=
  b.currentBlock?.any (·.terminator.isSome)

/-- Why the current block takes no instruction, if it takes none. -/
def refusal? (b : Builder) : Option Error :=
  match b.currentBlock? with
  | none => some .noInsertionPoint
  | some block => if block.terminator.isSome then some (.blockSealed block.name) else none

/-- Change the current block. -/
def modifyCurrent (b : Builder) (f : Block → Block) : Builder :=
  match b.current with
  | some block =>
    { b with function.blocks := b.function.blocks.modify block.index f }
  | none => b

end Builder

namespace BuildM

/-! ## Names -/

/-- Give out a name for a block or a slot. -/
def freshName (base : String) : BuildM String :=
  modifyGet fun b =>
    let (name, names) := b.names.fresh base
    (name, { b with names })

/-- Give out a register. -/
def freshReg (ty : Ty) : BuildM Reg :=
  modifyGet fun b =>
    (⟨"." ++ toString (b.temporaries + 1), ty⟩, { b with temporaries := b.temporaries + 1 })

theorem freshName_apply (base : String) (b : Builder) :
    freshName base b = .ok (b.names.fresh base).1 { b with names := (b.names.fresh base).2 } := rfl

theorem freshReg_apply (ty : Ty) (b : Builder) :
    freshReg ty b =
      .ok ⟨"." ++ toString (b.temporaries + 1), ty⟩
        { b with temporaries := b.temporaries + 1 } := rfl

/-! ## Blocks and the cursor -/

/-- Append an empty block; the cursor stays where it is. -/
def appendBlock (base : String) : BuildM BlockId := do
  let name ← freshName base
  modifyGet fun b =>
    (⟨b.function.blocks.length⟩,
      { b with function.blocks := b.function.blocks ++ [⟨name, [], none⟩] })

/-- Move the cursor to the end of a block. -/
def moveTo (block : BlockId) : BuildM Unit :=
  modify fun b => { b with current := some block }

def isSealed : BuildM Bool := return (← get).isSealed

/-- Fail unless the current block takes instructions. -/
def checkOpen : BuildM Unit := do
  if let some e := (← get).refusal? then throw e

/-- The name of a block as a branch target. -/
def target (block : BlockId) : BuildM String := do
  match (← get).blockName? block with
  | some name => return name
  | none => throw .noInsertionPoint

theorem appendBlock_apply (base : String) (b : Builder) :
    appendBlock base b =
      .ok ⟨b.function.blocks.length⟩
        { b with
          names := (b.names.fresh base).2
          function.blocks := b.function.blocks ++ [⟨(b.names.fresh base).1, [], none⟩] } := rfl

theorem moveTo_apply (block : BlockId) (b : Builder) :
    moveTo block b = .ok () { b with current := some block } := rfl

theorem get_apply (b : Builder) : (get : BuildM Builder) b = .ok b b := rfl

theorem checkOpen_apply (b : Builder) :
    checkOpen b = match b.refusal? with
      | some e => .error e b
      | none => .ok () b := by
  simp only [checkOpen, bind, EStateM.bind, get_apply]
  cases b.refusal? <;> rfl

theorem target_apply (block : BlockId) (b : Builder) :
    target block b = match b.blockName? block with
      | some name => .ok name b
      | none => .error .noInsertionPoint b := by
  simp only [target, bind, EStateM.bind, get_apply]
  cases b.blockName? block <;> rfl

/-! ## Instructions -/

/-- Add an instruction to the current block. -/
def emit (instr : Instr) : BuildM Unit := do
  checkOpen
  modify (·.modifyCurrent fun block => { block with instrs := block.instrs ++ [instr] })

theorem emit_apply (instr : Instr) (b : Builder) :
    emit instr b = match b.refusal? with
      | some e => .error e b
      | none =>
        .ok () (b.modifyCurrent fun block => { block with instrs := block.instrs ++ [instr] }) := by
  simp only [emit, bind, EStateM.bind, checkOpen_apply]
  cases b.refusal? <;> rfl

/-- Make a slot. A failure uses up no name. -/
def alloca (base : String) (ty : Ty) : BuildM Slot := do
  checkOpen
  let slot : Slot := ⟨← freshName base, ty⟩
  emit (.alloca slot)
  return slot

def load (src : Slot) : BuildM Value := do
  let dest ← freshReg src.ty
  emit (.load dest src)
  return .reg dest

def store (value : Value) (dest : Slot) : BuildM Unit := emit (.store value dest)

/-- The result has the type of the left operand. -/
def binary (op : Opcode) (lhs rhs : Value) : BuildM Value := do
  let dest ← freshReg lhs.ty
  emit (.binary dest op lhs rhs)
  return .reg dest

def icmp (pred : IntPredicate) (lhs rhs : Value) : BuildM Value := do
  let dest ← freshReg .i1
  emit (.icmp dest pred lhs rhs)
  return .reg dest

def fcmp (pred : FloatPredicate) (lhs rhs : Value) : BuildM Value := do
  let dest ← freshReg .i1
  emit (.fcmp dest pred lhs rhs)
  return .reg dest

def cast (op : CastOp) (value : Value) (ty : Ty) : BuildM Value := do
  let dest ← freshReg ty
  emit (.cast dest op value)
  return .reg dest

/-! ## Terminators -/

/-- Seal the current block. -/
def terminate (terminator : Terminator) : BuildM Unit := do
  checkOpen
  modify (·.modifyCurrent fun block => { block with terminator := some terminator })

theorem terminate_apply (terminator : Terminator) (b : Builder) :
    terminate terminator b = match b.refusal? with
      | some e => .error e b
      | none =>
        .ok () (b.modifyCurrent fun block => { block with terminator := some terminator }) := by
  simp only [terminate, bind, EStateM.bind, checkOpen_apply]
  cases b.refusal? <;> rfl

def branch (block : BlockId) : BuildM Unit := do
  terminate (.br (← target block))

def condBranch (cond : Value) (thenBlock elseBlock : BlockId) : BuildM Unit := do
  let thenTarget ← target thenBlock
  let elseTarget ← target elseBlock
  terminate (.condBr cond thenTarget elseTarget)

def ret (value : Option Value) : BuildM Unit := terminate (.ret value)

/-- Branch to a block, unless the current block is sealed. -/
def fallInto (block : BlockId) : BuildM Unit := do
  unless ← isSealed do branch block

end BuildM

/-! ## Conditionals -/

section Conditionals

open BuildM

variable {m : Type → Type} [Monad m] [MonadLiftT BuildM m]

/-- Build a conditional with one arm. The arm may use all of the monad it is built in, and the
cursor ends behind it. -/
def ifThen (cond : Value) (arm : m Unit) : m Unit := do
  let thenBlock ← appendBlock "if.then"
  let endBlock ← appendBlock "if.end"
  condBranch cond thenBlock endBlock
  moveTo thenBlock
  arm
  fallInto endBlock
  moveTo endBlock

/-- Build a conditional with two arms that meet behind it. -/
def ifElse (cond : Value) (thenArm elseArm : m Unit) : m Unit := do
  let thenBlock ← appendBlock "if.then"
  let elseBlock ← appendBlock "if.else"
  let endBlock ← appendBlock "if.end"
  condBranch cond thenBlock elseBlock
  moveTo thenBlock
  thenArm
  fallInto endBlock
  moveTo elseBlock
  elseArm
  fallInto endBlock
  moveTo endBlock

end Conditionals

end TinyC.Ir
