import TinyC.Text.Blank

/-!
# Places in a text

A place is a byte offset into the UTF-8 form of a text. Messages show it as a line and a column,
both counted from one, and quote the line around it. Columns count characters, and only a line
feed ends a line.
-/

namespace TinyC.Text

/-! ## Bytes -/

/-- The number of bytes in the UTF-8 form of a text. -/
def byteSize : List Char → Nat
  | [] => 0
  | c :: cs => c.utf8Size + byteSize cs

@[simp] theorem byteSize_nil : byteSize [] = 0 := rfl

@[simp] theorem byteSize_cons (c : Char) (cs : List Char) :
    byteSize (c :: cs) = c.utf8Size + byteSize cs := rfl

@[simp] theorem byteSize_append (as bs : List Char) :
    byteSize (as ++ bs) = byteSize as + byteSize bs := by
  induction as with
  | nil => simp
  | cons a as ih => simp [ih, Nat.add_assoc]

/-- Cut a text at a byte offset, unless the offset is inside a character or past the end. -/
def splitAt? : List Char → Nat → Option (List Char × List Char)
  | cs, 0 => some ([], cs)
  | [], _ + 1 => none
  | c :: cs, n + 1 =>
    if c.utf8Size ≤ n + 1 then
      (splitAt? cs (n + 1 - c.utf8Size)).map fun (before, after) => (c :: before, after)
    else none

/-! ## Lines and columns -/

/-- A line and a column of a text, both counted from one. -/
structure Position where
  line : Nat
  column : Nat
deriving DecidableEq, Repr

namespace Position

/-- The position of the first character. -/
def first : Position := ⟨1, 1⟩

/-- The position behind a character. -/
def advance (p : Position) (c : Char) : Position :=
  if c = '\n' then ⟨p.line + 1, 1⟩ else ⟨p.line, p.column + 1⟩

/-- The position that lies `n` bytes into a text whose first character is at `p`. A character is
passed as soon as it starts before the offset. -/
def walk (p : Position) : List Char → Nat → Position
  | [], _ => p
  | _ :: _, 0 => p
  | c :: cs, n + 1 => (p.advance c).walk cs (n + 1 - c.utf8Size)

@[simp] theorem walk_zero (p : Position) (cs : List Char) : p.walk cs 0 = p := by
  cases cs <;> rfl

end Position

/-- The line and column of a byte offset. -/
def positionOf (text : List Char) (offset : Nat) : Position :=
  Position.first.walk text offset

/-! ## The line around an offset -/

/-- The part of a text behind its last line feed. -/
def lastLine (cs : List Char) : List Char :=
  (cs.reverse.takeWhile (· ≠ '\n')).reverse

/-- The part of a text before its first line feed. -/
def firstLine (cs : List Char) : List Char :=
  cs.takeWhile (· ≠ '\n')

/-- The line that holds an offset, without the blanks around it. An offset past the end counts as
the end, and one inside a character has no line of its own, so it yields the whole text. -/
def contextOf (text : List Char) (offset : Nat) : List Char :=
  match splitAt? text (min offset (byteSize text)) with
  | some (before, after) => trim (lastLine before ++ firstLine after)
  | none => trim text

end TinyC.Text
