import TinyC.CommandLine
import TinyC.Compile
import TinyC.Error
import TinyC.Ir.Basic
import TinyC.Ir.Builder
import TinyC.Ir.Error
import TinyC.Ir.Names
import TinyC.Ir.Script
import TinyC.Ir.Text
import TinyC.Ir.Verify
import TinyC.Keyword
import TinyC.Lowering.Basic
import TinyC.Lowering.Expression
import TinyC.Lowering.Script
import TinyC.Lowering.Statement
import TinyC.Lowering.Symbols
import TinyC.Main
import TinyC.Numeral.Binary
import TinyC.Numeral.Decimal
import TinyC.Numeral.Integer
import TinyC.Parser
import TinyC.Parser.Expression
import TinyC.Parser.Statement
import TinyC.Parser.Terminal
import TinyC.Program
import TinyC.Program.Outline
import TinyC.Proofs.Grammar.Derivation
import TinyC.Proofs.Ir.Builder
import TinyC.Proofs.Ir.Names
import TinyC.Proofs.Ir.Semantics
import TinyC.Proofs.Ir.Typing
import TinyC.Proofs.Ir.Verify
import TinyC.Proofs.Lowering.Expression
import TinyC.Proofs.Lowering.Invariants
import TinyC.Proofs.Lowering.Moves
import TinyC.Proofs.Lowering.Program
import TinyC.Proofs.Lowering.Simulation
import TinyC.Proofs.Lowering.Statement
import TinyC.Proofs.Lowering.Values
import TinyC.Proofs.Numeral.Arithmetic
import TinyC.Proofs.Parser.Machine
import TinyC.Proofs.Program.Scope
import TinyC.Proofs.Program.Semantics
import TinyC.Text.Blank
import TinyC.Text.Outline
import TinyC.Text.Position
import TinyC.Text.Printable
import TinyC.Text.Quoted
import TinyC.Token
import TinyC.Token.Error
import TinyC.Token.Lexeme
import TinyC.Token.Scanner
import TinyC.Proofs.Parser.Expression
import TinyC.Proofs.Parser.Statement
import TinyC.Proofs.Grammar.Ambiguity
import TinyC.Proofs.Grammar.NearestIf
import TinyC.Proofs.Program.Declared
import TinyC.Proofs.Lowering.SingleAssignment
import TinyC.Proofs.Ir.Allocation
import TinyC.Proofs.Program.Flow
import TinyC.Proofs.Lowering.DeclaredFirst
import TinyC.Proofs.Program.Printer
import TinyC.Proofs.Parser.Viable
import TinyC.Proofs.Token.Steps
import TinyC.Proofs.Token.Coverage
import TinyC.Proofs.Parser.Outcome
import TinyC.Proofs.Token.RoundTrip
import TinyC.Proofs.Ir.Calls
import TinyC.Proofs.Ir.Naming
import TinyC.Proofs.Ir.Linked
import TinyC.Proofs.Ir.Edges
import TinyC.Proofs.Lowering.Regions
import TinyC.Proofs.Lowering.SingleExit
import TinyC.Proofs.CommandLine.Warnings
import TinyC.Proofs.Token.Language
import TinyC.Proofs.Token.Rules
import TinyC.Proofs.Token.Constants
import TinyC.Proofs.Token.LongestMatch
import TinyC.Proofs.Numeral.Widening
import TinyC.Proofs.Ir.Text
import TinyC.Proofs.Ir.Legible
import TinyC.Proofs.Lowering.Printing
import TinyC.Proofs.Numeral.Suffix
import TinyC.Proofs.Numeral.Digits
import TinyC.Proofs.Numeral.Fields
import TinyC.Proofs.Numeral.Rounding
import TinyC.Proofs.Numeral.Significant
import TinyC.Proofs.Numeral.Shortest
import TinyC.Proofs.Token.Floats
import TinyC.Proofs.Token.Integers
import TinyC.Proofs.Token.Literals
import TinyC.Proofs.Token.Lookahead
import TinyC.Proofs.Text.Position
import TinyC.Proofs.Token.Lines
import TinyC.Proofs.Text.Blanking
import TinyC.Proofs.Token.Recovery
import TinyC.Proofs.Text.Lines
import TinyC.Proofs.Parser.Places
import TinyC.Proofs.Parser.OffendingToken
import TinyC.Proofs.Lowering.Frame
import TinyC.Proofs.Lowering.Journal
import TinyC.Proofs.Lowering.Slots
import TinyC.Proofs.Lowering.Folding
import TinyC.Proofs.Lowering.Flattening
import TinyC.Proofs.Ir.Numbering
import TinyC.Proofs.Ir.Alike
import TinyC.Proofs.Program.Renaming
import TinyC.Proofs.Lowering.Lockstep
import TinyC.Proofs.Lowering.ForLoops
import TinyC.Proofs.Lowering.Renaming
import TinyC.Proofs.Ir.GivenNames
import TinyC.Proofs.Ir.Verdict
import TinyC.Proofs.Ir.Refusals
import TinyC.Proofs.Ir.Conditionals
import TinyC.Proofs.Ir.Structured
