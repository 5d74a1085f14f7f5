import TinyC.Keyword
import TinyC.Numeral.Decimal

/-!
# Tokens

What the scanner finds in a text: constants, string literals, words, and operators.
-/

namespace TinyC

/-! ## Operators -/

/-- Operators and punctuation. -/
inductive Punct
  | star | plus | minus | percent | slash | amp | bang | tilde | pipe | caret | assign | comma
  | lparen | rparen | lbrace | rbrace | semicolon | lt | gt
  | andAnd | orOr | le | ge | eqEq | ne
deriving DecidableEq, Repr

namespace Punct

def text : Punct → String
  | .star => "*"
  | .plus => "+"
  | .minus => "-"
  | .percent => "%"
  | .slash => "/"
  | .amp => "&"
  | .bang => "!"
  | .tilde => "~"
  | .pipe => "|"
  | .caret => "^"
  | .assign => "="
  | .comma => ","
  | .lparen => "("
  | .rparen => ")"
  | .lbrace => "\x7b"
  | .rbrace => "\x7d"
  | .semicolon => ";"
  | .lt => "<"
  | .gt => ">"
  | .andAnd => "&&"
  | .orOr => "||"
  | .le => "<="
  | .ge => ">="
  | .eqEq => "=="
  | .ne => "!="

/-- The name of the operator in listings. -/
def tag : Punct → String
  | .star => "Star"
  | .plus => "Plus"
  | .minus => "Minus"
  | .percent => "Percent"
  | .slash => "Slash"
  | .amp => "Amp"
  | .bang => "Bang"
  | .tilde => "Tilde"
  | .pipe => "Pipe"
  | .caret => "Caret"
  | .assign => "Assign"
  | .comma => "Comma"
  | .lparen => "LParen"
  | .rparen => "RParen"
  | .lbrace => "LBrace"
  | .rbrace => "RBrace"
  | .semicolon => "Semicolon"
  | .lt => "Lt"
  | .gt => "Gt"
  | .andAnd => "AndAnd"
  | .orOr => "OrOr"
  | .le => "Le"
  | .ge => "Ge"
  | .eqEq => "EqEq"
  | .ne => "Ne"

/-- The operator of one character. -/
def ofChar? : Char → Option Punct
  | '*' => some .star
  | '+' => some .plus
  | '-' => some .minus
  | '%' => some .percent
  | '/' => some .slash
  | '&' => some .amp
  | '!' => some .bang
  | '~' => some .tilde
  | '|' => some .pipe
  | '^' => some .caret
  | '=' => some .assign
  | ',' => some .comma
  | '(' => some .lparen
  | ')' => some .rparen
  | '{' => some .lbrace
  | '}' => some .rbrace
  | ';' => some .semicolon
  | '<' => some .lt
  | '>' => some .gt
  | _ => none

/-- The operator of two characters. -/
def ofPair? : Char → Char → Option Punct
  | '&', '&' => some .andAnd
  | '|', '|' => some .orOr
  | '<', '=' => some .le
  | '>', '=' => some .ge
  | '=', '=' => some .eqEq
  | '!', '=' => some .ne
  | _, _ => none

theorem text_of_ofChar? {c : Char} {p : Punct} (h : ofChar? c = some p) :
    p.text.toList = [c] := by
  unfold ofChar? at h
  split at h <;> simp at h <;> subst h <;> rfl

theorem text_of_ofPair? {c d : Char} {p : Punct} (h : ofPair? c d = some p) :
    p.text.toList = [c, d] := by
  unfold ofPair? at h
  split at h <;> simp at h <;> subst h <;> rfl

end Punct

/-! ## Tokens -/

inductive Token
  | int (value : UInt64)
  | float (value : Binary64)
  /-- A string literal as it stands in the text, quotes and escapes included. -/
  | str (text : String)
  | ident (name : String)
  | keyword (keyword : Keyword)
  | punct (punct : Punct)
deriving DecidableEq, Repr

namespace Token

/-- The text of a token. Constants are written in their shortest decimal form. -/
def text : Token → String
  | .int n => toString n.toNat
  | .float x => x.text
  | .str s => s
  | .ident name => name
  | .keyword k => k.spelling
  | .punct p => p.text

/-- The token that a word stands for. -/
def ofWord (word : String) : Token :=
  match Keyword.ofWord? word with
  | some k => .keyword k
  | none => .ident word

@[simp] theorem text_ofWord (word : String) : (ofWord word).text = word := by
  unfold ofWord
  split
  · exact Keyword.spelling_of_ofWord? ‹_›
  · rfl

end Token

/-- Something that covers the bytes from `start` up to `stop`. -/
structure Spanned (α : Type) where
  start : Nat
  value : α
  stop : Nat
deriving DecidableEq, Repr

end TinyC
