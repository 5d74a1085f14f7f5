import TinyC.Ir.Basic
import TinyC.Ir.Error

/-!
# Well-formed functions

A function is well formed if it has a block, no two blocks share a name, every block is sealed, and
every terminator names blocks of the function. The verifier reports the first of these that fails.
-/

namespace TinyC.Ir

/-- The first name that occurs before in the list, or among the names already seen. -/
def firstRepeated? (seen : List String) : List String → Option String
  | [] => none
  | name :: names => if name ∈ seen then some name else firstRepeated? (name :: seen) names

/-- Check that a block is sealed and leads only to blocks of the given names. -/
def Block.verify (names : List String) (b : Block) : Except Error Unit :=
  match b.terminator with
  | none => .error (.unterminatedBlock b.name)
  | some terminator =>
    match terminator.targets.find? (· ∉ names) with
    | some target => .error (.unknownTarget b.name target)
    | none => .ok ()

def Function.verify (f : Function) : Except Error Unit := do
  if f.blocks.isEmpty then throw (.emptyFunction f.name)
  if let some name := firstRepeated? [] f.blockNames then throw (.duplicateBlock name)
  f.blocks.forM (·.verify f.blockNames)

def Module.verify (m : Module) : Except Error Unit := m.functions.forM Function.verify

end TinyC.Ir
