import TinyC.Ir.Builder

/-!
# Scripts of builder calls

A history of builder calls as data. Running a command yields its outcome and the builder it leaves
behind; a failed command does not stop a script. Inside the arm of a conditional the first failure
ends the arm and becomes the failure of the conditional.
-/

namespace TinyC.Ir

/-- A call of a builder operation. -/
inductive Command
  | appendBlock (name : String)
  | moveTo (block : BlockId)
  | blockName (block : BlockId)
  | isSealed
  | alloca (name : String) (ty : Ty)
  | load (src : Slot)
  | store (value : Value) (dest : Slot)
  | binary (op : Opcode) (lhs rhs : Value)
  | icmp (pred : IntPredicate) (lhs rhs : Value)
  | fcmp (pred : FloatPredicate) (lhs rhs : Value)
  | cast (op : CastOp) (value : Value) (ty : Ty)
  | branch (block : BlockId)
  | condBranch (cond : Value) (thenBlock elseBlock : BlockId)
  | ret (value : Option Value)
  | ifThen (cond : Value) (arm : List Command)
  | ifElse (cond : Value) (thenArm elseArm : List Command)

/-- What a call gives back. -/
inductive Outcome
  | done
  | block (block : BlockId) (name : String)
  | name (name : Option String)
  | flag (flag : Bool)
  | slot (slot : Slot)
  | value (value : Value)
  | failed (error : Error)
  /-- A conditional gives back the outcomes in each of its arms, and may have failed. -/
  | arms (outcomes : List (List Outcome)) (error : Option Error)

def Outcome.error? : Outcome → Option Error
  | .failed e => some e
  | .arms _ e => e
  | _ => none

/-! ## Recording -/

/-- A builder and the outcomes so far in the arms of the conditional being built. -/
structure Recording where
  builder : Builder
  arms : List (List Outcome)

abbrev RecordM := EStateM Error Recording

/-- Use the builder of a recording. -/
def RecordM.build {α : Type} (x : BuildM α) : RecordM α := fun r =>
  match x r.builder with
  | .ok a builder => .ok a { r with builder }
  | .error e builder => .error e { r with builder }

instance : MonadLift BuildM RecordM := ⟨RecordM.build⟩

/-- Note an outcome in an arm; a failure ends the arm. -/
def RecordM.note (arm : Nat) (outcome : Outcome) : RecordM Unit := do
  modify fun r => { r with arms := r.arms.modify arm (· ++ [outcome]) }
  if let some e := outcome.error? then throw e

/-- Build a conditional and give back what was recorded in its arms. -/
def RecordM.outcome (arms : Nat) (x : RecordM Unit) (b : Builder) : Outcome × Builder :=
  match x ⟨b, List.replicate arms []⟩ with
  | .ok _ r => (.arms r.arms none, r.builder)
  | .error e r => (.arms r.arms (some e), r.builder)

/-! ## Running -/

/-- Run an operation and give back its outcome. -/
def attempt (x : BuildM Outcome) (b : Builder) : Outcome × Builder :=
  match x b with
  | .ok outcome b => (outcome, b)
  | .error e b => (.failed e, b)

mutual

def Command.run : Command → Builder → Outcome × Builder
  | .appendBlock name => attempt do
    let block ← BuildM.appendBlock name
    return .block block (((← get).blockName? block).getD name)
  | .moveTo block => attempt do BuildM.moveTo block; return .done
  | .blockName block => attempt do return .name ((← get).blockName? block)
  | .isSealed => attempt do return .flag (← BuildM.isSealed)
  | .alloca name ty => attempt do return .slot (← BuildM.alloca name ty)
  | .load src => attempt do return .value (← BuildM.load src)
  | .store value dest => attempt do BuildM.store value dest; return .done
  | .binary op lhs rhs => attempt do return .value (← BuildM.binary op lhs rhs)
  | .icmp pred lhs rhs => attempt do return .value (← BuildM.icmp pred lhs rhs)
  | .fcmp pred lhs rhs => attempt do return .value (← BuildM.fcmp pred lhs rhs)
  | .cast op value ty => attempt do return .value (← BuildM.cast op value ty)
  | .branch block => attempt do BuildM.branch block; return .done
  | .condBranch cond thenBlock elseBlock => attempt do
    BuildM.condBranch cond thenBlock elseBlock
    return .done
  | .ret value => attempt do BuildM.ret value; return .done
  | .ifThen cond arm => RecordM.outcome 1 (ifThen cond (runArm 0 arm))
  | .ifElse cond thenArm elseArm =>
    RecordM.outcome 2 (ifElse cond (runArm 0 thenArm) (runArm 1 elseArm))

/-- Run the commands of an arm up to the first failure. -/
def runArm (arm : Nat) : List Command → RecordM Unit
  | [] => pure ()
  | command :: commands => do
    let outcome ← modifyGet fun r =>
      let (outcome, builder) := command.run r.builder
      (outcome, { r with builder })
    RecordM.note arm outcome
    runArm arm commands

end

/-- Run all commands, and give back each outcome with the builder behind it. -/
def runScript : List Command → Builder → List (Outcome × Builder)
  | [], _ => []
  | command :: commands, b =>
    let (outcome, b) := command.run b
    (outcome, b) :: runScript commands b

end TinyC.Ir
