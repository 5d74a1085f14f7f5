import TinyC.Ir.Error
import TinyC.Parser.Terminal
import TinyC.Program
import TinyC.Token.Error

/-!
# Compile errors

Every way in which compiling a source can fail, and the text of each.
-/

namespace TinyC

/-! ## Syntax -/

/-- The place where a source stops being a program, and what could have stood there. -/
structure SyntaxError where
  position : Text.Position
  /-- The line around the place. -/
  context : String
  /-- The text of the token found there, unless it is the end of the input. -/
  token : Option String
  expected : List Terminal
deriving DecidableEq, Repr

namespace SyntaxError

/-- The error at a byte offset of a source. -/
def report (source : List Char) (location : Nat) (token : Option Token)
    (expected : List Terminal) : SyntaxError where
  position := Text.positionOf source location
  context := String.ofList (Text.contextOf source location)
  token := token.map Token.text
  expected

/-- What was found and what was expected. -/
def detail (e : SyntaxError) : String :=
  (match e.token with
    | some token => s!"Unexpected token '{token}'."
    | none => "Unexpected end of input.") ++
  s!" Expected one of: {expectedText e.expected}"

def message (e : SyntaxError) : String :=
  s!"Syntax error ({e.position.line}:{e.position.column}) - {e.detail}\n  Context: {e.context}"

end SyntaxError

/-! ## Names -/

inductive SemanticFault
  | undeclaredIdentifier
  | redeclaration
deriving DecidableEq, Repr

def SemanticFault.tag : SemanticFault → String
  | .undeclaredIdentifier => "UndeclaredIdentifier"
  | .redeclaration => "Redeclaration"

/-- A name used against the rules. -/
structure SemanticError where
  fault : SemanticFault
  name : String
  detail : String
deriving DecidableEq, Repr

namespace SemanticError

/-- An expression mentions a name that is not declared. -/
def undeclaredUse (name : String) : SemanticError :=
  ⟨.undeclaredIdentifier, name, s!"use of undeclared identifier '{name}'"⟩

/-- An assignment goes to a name that is not declared. -/
def undeclaredTarget (name : String) : SemanticError :=
  ⟨.undeclaredIdentifier, name, s!"assignment to undeclared variable '{name}'"⟩

/-- A name is declared that stands for a variable of type `ty` already. -/
def redeclared (name : String) (ty : Ty) : SemanticError :=
  ⟨.redeclaration, name, s!"'{name}' already declared as {ty.text}"⟩

def message (e : SemanticError) : String :=
  s!"SemanticError:{e.fault.tag} '{e.name}' - {e.detail}"

end SemanticError

/-! ## All errors -/

/-- A broken promise between the parts of the compiler. -/
inductive InternalError
  | stackUnderflow
  | operandsLeft (count : Nat)
deriving DecidableEq, Repr

def InternalError.message : InternalError → String
  | .stackUnderflow => "operand stack underflow"
  | .operandsLeft count => s!"{count} operand(s) left on the stack after lowering"

inductive Error
  | lexical (error : LexicalError)
  | syntactic (error : SyntaxError)
  | semantic (error : SemanticError)
  | invalidIr (error : Ir.Error)
  | internal (error : InternalError)
deriving DecidableEq, Repr

namespace Error

def message : Error → String
  | .lexical e => s!"Lexical error: {e.message}"
  | .syntactic e => e.message
  | .semantic e => e.message
  | .invalidIr e => s!"Invalid IR: {e.message}"
  | .internal e => s!"Internal compiler error: {e.message}"

/-- The error inside an error, if it only passes one on. -/
def cause? : Error → Option String
  | .lexical e => some e.message
  | .invalidIr e => some e.message
  | _ => none

end Error

end TinyC
