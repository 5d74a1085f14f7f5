import TinyC.Ir.Basic

/-!
# The text of the intermediate representation

One line per instruction, under the name of its block. Float constants are written as the bits of
the same number in the wider format.
-/

namespace TinyC.Ir

def Ty.text : Ty → String
  | .i1 => "i1"
  | .i32 => "i32"
  | .f32 => "float"

/-! ## Values -/

def Reg.text (r : Reg) : String := "%" ++ r.name

def Slot.text (s : Slot) : String := "%" ++ s.name

/-- A slot used as a pointer. -/
def Slot.pointer (s : Slot) : String := s.ty.text ++ "* " ++ s.text

/-- The bits of a number as sixteen hexadecimal digits. -/
def hexText (x : Binary64) : String :=
  let digits := (Nat.toDigits 16 x.bits.toNat).map Char.toUpper
  String.ofList ('0' :: 'x' :: List.replicate (16 - digits.length) '0' ++ digits)

def Value.text : Value → String
  | .int n => toString n.toInt
  | .float x => hexText x.widen
  | .bool true => "true"
  | .bool false => "false"
  | .reg r => r.text

/-- A value behind its type. -/
def Value.typed (v : Value) : String := v.ty.text ++ " " ++ v.text

/-! ## Instructions -/

def Opcode.text : Opcode → String
  | .add => "add"
  | .sub => "sub"
  | .mul => "mul"
  | .sdiv => "sdiv"
  | .srem => "srem"
  | .fadd => "fadd"
  | .fsub => "fsub"
  | .fmul => "fmul"
  | .fdiv => "fdiv"
  | .frem => "frem"
  | .and => "and"
  | .or => "or"

def IntPredicate.text : IntPredicate → String
  | .eq => "eq"
  | .ne => "ne"
  | .slt => "slt"
  | .sle => "sle"
  | .sgt => "sgt"
  | .sge => "sge"

def FloatPredicate.text : FloatPredicate → String
  | .oeq => "oeq"
  | .one => "one"
  | .olt => "olt"
  | .ole => "ole"
  | .ogt => "ogt"
  | .oge => "oge"

def CastOp.text : CastOp → String
  | .sitofp => "sitofp"
  | .fptosi => "fptosi"
  | .zext => "zext"
  | .uitofp => "uitofp"

def Instr.text : Instr → String
  | .alloca dest => dest.text ++ " = alloca " ++ dest.ty.text
  | .load dest src => dest.text ++ " = load " ++ dest.ty.text ++ ", " ++ src.pointer
  | .store value dest => "store " ++ value.typed ++ ", " ++ dest.pointer
  | .binary dest op lhs rhs =>
    dest.text ++ " = " ++ op.text ++ " " ++ lhs.typed ++ ", " ++ rhs.text
  | .icmp dest pred lhs rhs =>
    dest.text ++ " = icmp " ++ pred.text ++ " " ++ lhs.typed ++ ", " ++ rhs.text
  | .fcmp dest pred lhs rhs =>
    dest.text ++ " = fcmp " ++ pred.text ++ " " ++ lhs.typed ++ ", " ++ rhs.text
  | .cast dest op value =>
    dest.text ++ " = " ++ op.text ++ " " ++ value.typed ++ " to " ++ dest.ty.text

def Terminator.text : Terminator → String
  | .br target => "br label %" ++ target
  | .condBr cond thenTarget elseTarget =>
    "br i1 " ++ cond.text ++ ", label %" ++ thenTarget ++ ", label %" ++ elseTarget
  | .ret (some value) => "ret " ++ value.typed
  | .ret none => "ret void"

/-! ## Blocks, functions, modules -/

/-- The lines of a block below its name. -/
def Block.lines (b : Block) : List String :=
  b.instrs.map Instr.text ++ (b.terminator.map Terminator.text).toList

def Block.text (b : Block) : String :=
  b.name ++ ":\n" ++ String.join (b.lines.map fun line => "  " ++ line ++ "\n")

/-- Blocks are set apart by an empty line. -/
def Function.text (f : Function) : String :=
  "define " ++ f.ret.text ++ " @" ++ f.name ++ "() \x7b\n" ++
    "\n".intercalate (f.blocks.map Block.text) ++ "\x7d\n"

def Module.text (m : Module) : String :=
  "; ModuleID = \"" ++ m.name ++ "\"\n" ++
    String.join (m.functions.map fun f => "\n" ++ f.text)

end TinyC.Ir
