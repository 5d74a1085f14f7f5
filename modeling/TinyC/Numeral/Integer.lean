/-!
# Digits and integer constants

Digit strings in a base, and the value of an integer constant: hexadecimal after `0x`, octal after
a leading zero, decimal otherwise. A suffix says of which type the constant is, and does not count.
-/

namespace TinyC

def isDigit (c : Char) : Bool := '0' ≤ c && c ≤ '9'

def isHexDigit (c : Char) : Bool :=
  isDigit c || ('a' ≤ c && c ≤ 'f') || ('A' ≤ c && c ≤ 'F')

/-- The value of a hexadecimal digit. -/
def digitValue (c : Char) : Nat :=
  if isDigit c then c.toNat - '0'.toNat
  else if 'a' ≤ c then c.toNat - 'a'.toNat + 10
  else c.toNat - 'A'.toNat + 10

/-- The number that digits spell in a base. -/
def ofDigits (base : Nat) (cs : List Char) : Nat :=
  cs.foldl (fun n c => base * n + digitValue c) 0

@[simp] theorem ofDigits_nil (base : Nat) : ofDigits base [] = 0 := rfl

theorem ofDigits_append_singleton (base : Nat) (cs : List Char) (c : Char) :
    ofDigits base (cs ++ [c]) = base * ofDigits base cs + digitValue c := by
  simp [ofDigits]

/-- The number that digits spell in a base, unless one of them does not belong to it. -/
def ofDigits? (base : Nat) (cs : List Char) : Option Nat :=
  if cs.all (digitValue · < base) then some (ofDigits base cs) else none

/-- The value of an integer constant without its suffix, unless a digit does not fit the base or
the value does not fit 64 bits. -/
def integerValue? (body : List Char) : Option UInt64 := do
  let n ←
    match body with
    | '0' :: 'x' :: ds | '0' :: 'X' :: ds => ofDigits? 16 ds
    | '0' :: d :: ds => ofDigits? 8 (d :: ds)
    | ds => ofDigits? 10 ds
  if n < 0x10000000000000000 then some (UInt64.ofNat n) else none

/-! ## Suffixes -/

/-- The letters that mark an integer constant as unsigned or long. -/
def isSuffixLetter (c : Char) : Bool := c = 'u' || c = 'U' || c = 'l' || c = 'L'

/-- An integer constant without the width at its end. -/
def dropWidth (lexeme : List Char) : List Char :=
  if "i64".toList <:+ lexeme ∨ "I64".toList <:+ lexeme then lexeme.take (lexeme.length - 3)
  else lexeme

/-- An integer constant without its suffix, which is letters, a width, or letters and a width. -/
def dropSuffix (lexeme : List Char) : List Char :=
  ((dropWidth lexeme).reverse.dropWhile isSuffixLetter).reverse

/-- The value of an integer constant, whatever its suffix. -/
def constantValue? (lexeme : List Char) : Option UInt64 := integerValue? (dropSuffix lexeme)

end TinyC
