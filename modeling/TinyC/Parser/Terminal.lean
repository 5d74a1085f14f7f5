import TinyC.Token

/-!
# Terminals

The kinds of tokens that programs are made of, in the order in which messages list them.
-/

namespace TinyC

/-- A kind of token that the grammar knows. -/
inductive Terminal
  | keyword (keyword : Keyword)
  | ident
  | int
  | float
  | punct (punct : Punct)
deriving DecidableEq, Repr

namespace Terminal

/-- The terminals of the grammar. -/
def all : List Terminal :=
  [.keyword .int, .keyword .float, .keyword .if_, .keyword .else_, .keyword .while_, .keyword .for_,
    .ident, .int, .float,
    .punct .orOr, .punct .andAnd, .punct .eqEq, .punct .ne, .punct .lt, .punct .le, .punct .gt,
    .punct .ge, .punct .plus, .punct .minus, .punct .star, .punct .slash, .punct .percent,
    .punct .assign, .punct .lparen, .punct .rparen, .punct .lbrace, .punct .rbrace,
    .punct .semicolon]

/-- The name of a terminal. Keywords and operators are named by their text. -/
def name : Terminal → String
  | .keyword k => k.spelling
  | .ident => "identifier"
  | .int => "integer constant"
  | .float => "float constant"
  | .punct p => p.text

/-- A token of the kind. -/
def sample : Terminal → Token
  | .keyword k => .keyword k
  | .ident => .ident ""
  | .int => .int 0
  | .float => .float .zero
  | .punct p => .punct p

end Terminal

/-- How a message shows the name of a terminal, which may come in double quotes: the names of
classes stand bare, and the texts of keywords and operators stand in single quotes. -/
def terminalLabel (name : String) : String :=
  let strip := List.dropWhile (· = '"')
  let bare := String.ofList (strip (strip name.toList).reverse).reverse
  if bare = "identifier" || bare = "integer constant" || bare = "float constant" then bare
  else s!"'{bare}'"

/-- The terminals of an `Expected one of:` message. -/
def expectedText (terminals : List Terminal) : String :=
  ", ".intercalate (terminals.map fun t => terminalLabel t.name)

end TinyC
