import TinyC.Ir.Verify
import TinyC.Lowering.Statement
import TinyC.Parser

/-!
# Compiling

From a program to a verified module, and from a source text to one.
-/

namespace TinyC

/-- Lower a program to a module of one function, and verify it. -/
def Program.toModule (p : Program) : Except Error Ir.Module := do
  let function ←
    match p.lower (.new p.name) with
    | .ok _ s => s.finish
    | .error e _ => throw e
  let module : Ir.Module := ⟨p.name, [function]⟩
  module.verify.mapError .invalidIr
  return module

/-- A module and the errors that the scanner skipped on the way. -/
structure Compilation where
  module : Ir.Module
  diagnostics : List LexicalError

/-- Compile a source text. -/
def compile (source : String) : Except Error Compilation := do
  let parsed ← parse source
  let module ← parsed.program.toModule
  return ⟨module, parsed.diagnostics⟩

end TinyC
