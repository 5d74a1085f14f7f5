import TinyC.Text.Position

/-!
# Lexical errors

What the scanner reports where a text holds no token, with all that a message about it shows.
-/

namespace TinyC

inductive LexicalFault
  /-- A character that starts no token. -/
  | unexpectedCharacter
  /-- An integer constant whose digits do not fit their base or 64 bits. -/
  | invalidInteger
  /-- The text ends inside a string literal. -/
  | unterminatedString
deriving DecidableEq, Repr

/-- The name of the fault in listings. -/
def LexicalFault.tag : LexicalFault → String
  | .unexpectedCharacter => "UnexpectedCharacter"
  | .invalidInteger => "InvalidIntegerConstant"
  | .unterminatedString => "UnterminatedString"

structure LexicalError where
  fault : LexicalFault
  /-- The byte offset of the offending text. -/
  location : Nat
  position : Text.Position
  /-- The first character of the offending text. -/
  char : Char
  lexeme : String
  /-- The line around the offending text. -/
  context : String
deriving DecidableEq, Repr

namespace LexicalError

/-- The error for the characters `lexeme` that stand at a byte offset of a source. -/
def report (source : List Char) (fault : LexicalFault) (location : Nat) (lexeme : List Char) :
    LexicalError where
  fault
  location
  position := Text.positionOf source location
  char := lexeme.headD (Char.ofNat 0)
  lexeme := String.ofList lexeme
  context := String.ofList (Text.contextOf source location)

/-- Only an unterminated string ends the scan. -/
def isRecoverable (e : LexicalError) : Bool := e.fault ≠ .unterminatedString

def message (e : LexicalError) : String :=
  (match e.fault with
    | .unexpectedCharacter => s!"Illegal character '{e.char}' at"
    | .invalidInteger => s!"Invalid integer constant '{e.lexeme}' at"
    | .unterminatedString => "Unterminated string starting at") ++
  s!" line {e.position.line}, column {e.position.column} (position {e.location})\n" ++
  s!"  Context: {e.context}"

end LexicalError

end TinyC
