/-!
# Errors of the intermediate representation

Why a builder refuses a call, or a verifier a function.
-/

namespace TinyC.Ir

inductive Error
  /-- No block is current, or a block handle is not known yet. -/
  | noInsertionPoint
  /-- The current block has a terminator already. -/
  | blockSealed (block : String)
  | unterminatedBlock (block : String)
  | unknownTarget (block target : String)
  | duplicateBlock (name : String)
  | emptyFunction (function : String)
deriving DecidableEq, Repr

def Error.message : Error → String
  | .noInsertionPoint => "no insertion block is set"
  | .blockSealed block => s!"block '{block}' is already terminated"
  | .unterminatedBlock block => s!"block '{block}' has no terminator"
  | .unknownTarget block target => s!"block '{block}' branches to unknown block '{target}'"
  | .duplicateBlock name => s!"block name '{name}' is used more than once"
  | .emptyFunction function => s!"function '{function}' has no blocks"

end TinyC.Ir
