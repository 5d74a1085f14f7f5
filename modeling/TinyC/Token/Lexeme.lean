import TinyC.Token
import TinyC.Token.Error

/-!
# Lexemes

The longest lexeme at the head of a text: a run of blanks, a comment, a word, a constant, an
operator, the quote that opens a string literal, or a character that starts none of these. The
first character decides the kind, except that a point starts a float constant only before a digit,
and that digits start an integer or a float constant.

Main statement: `Lexeme.of_splits`, a lexeme is never empty and nothing of the text is lost.
-/

namespace TinyC

/-- What the head of a text turns out to be. -/
inductive Reading
  /-- Blanks or a comment. -/
  | gap
  /-- The quote that opens a string literal. -/
  | quote
  | token (token : Token)
  | fault (fault : LexicalFault)
deriving DecidableEq, Repr

/-- A lexeme and the text behind it. -/
structure Lexeme where
  reading : Reading
  text : List Char
  rest : List Char

namespace Lexeme

/-! ## Character classes -/

/-- The blanks that may stand between tokens. -/
def isGap (c : Char) : Bool :=
  c = ' ' || c = '\t' || c = '\r' || c = '\n' || c = '\x0c'

def isWordStart (c : Char) : Bool :=
  c = '_' || ('a' ≤ c && c ≤ 'z') || ('A' ≤ c && c ≤ 'Z')

def isWordChar (c : Char) : Bool := isWordStart c || isDigit c

/-! ## Float constants -/

/-- The power of ten at the head of a text: its characters, its value, and what follows. -/
structure Exponent where
  text : List Char
  value : Int
  rest : List Char

/-- Read an exponent, which is a letter, an optional sign, and at least one digit. -/
def exponent? : List Char → Option Exponent
  | [] => none
  | c :: cs =>
    if c = 'e' || c = 'E' then
      let (sign, tail) :=
        match cs with
        | '+' :: tail => (['+'], tail)
        | '-' :: tail => (['-'], tail)
        | tail => ([], tail)
      let digits := tail.takeWhile isDigit
      if digits = [] then none
      else
        let value : Int := ofDigits 10 digits
        some ⟨c :: sign ++ digits, if sign = ['-'] then -value else value,
          tail.dropWhile isDigit⟩
    else none

/-- The optional letter behind a float constant. -/
def floatSuffix : List Char → List Char
  | 'f' :: _ => ['f']
  | 'F' :: _ => ['F']
  | 'l' :: _ => ['l']
  | 'L' :: _ => ['L']
  | _ => []

/-- The float constant with the given parts; `body` is their text. -/
def float (whole fraction body : List Char) (exponent : Exponent) : Lexeme :=
  let suffix := floatSuffix exponent.rest
  { reading := .token (.float (Decimal.ofParts whole fraction exponent.value).toBinary64)
    text := body ++ exponent.text ++ suffix
    rest := exponent.rest.drop suffix.length }

/-- Read a float constant: digits with a point, an exponent, or both. Digits with a point behind
them and then the letter of an exponent must go on to a whole exponent; if they do not, digits and
point are taken for an integer constant, which they do not spell. This last case does not follow
from the rules for constants: it is the observed output of the lexer generated from them. -/
def float? (cs : List Char) : Option Lexeme :=
  let whole := cs.takeWhile isDigit
  match cs.dropWhile isDigit with
  | '.' :: cs =>
    let fraction := cs.takeWhile isDigit
    let tail := cs.dropWhile isDigit
    if whole = [] && fraction = [] then none
    else
      let body := whole ++ '.' :: fraction
      match exponent? tail with
      | some exponent => some (float whole fraction body exponent)
      | none =>
        if fraction = [] && (tail.head? = some 'e' || tail.head? = some 'E') then
          some ⟨.fault .invalidInteger, body, tail⟩
        else some (float whole fraction body ⟨[], 0, tail⟩)
  | tail =>
    if whole = [] then none else (exponent? tail).map (float whole [] whole)

/-! ## Integer constants -/

/-- The suffixes of integer constants, longer ones first. -/
def integerSuffixes : List (List Char) :=
  ["ui64", "uI64", "Ui64", "UI64",
    "ull", "uLL", "Ull", "ULL", "llu", "llU", "LLu", "LLU", "i64", "I64",
    "ul", "uL", "Ul", "UL", "lu", "lU", "Lu", "LU", "ll", "LL",
    "u", "U", "l", "L"].map String.toList

/-- The longest suffix at the head of a text. -/
def integerSuffix (cs : List Char) : List Char :=
  (integerSuffixes.find? fun suffix => cs.take suffix.length = suffix).getD []

/-- The digits of an integer constant, with the `0x` before hexadecimal ones. -/
def integerBody (cs : List Char) : List Char :=
  match cs with
  | '0' :: x :: tail =>
    let digits := tail.takeWhile isHexDigit
    if (x = 'x' || x = 'X') && digits ≠ [] then '0' :: x :: digits else cs.takeWhile isDigit
  | cs => cs.takeWhile isDigit

/-- What an integer constant stands for. -/
def integerReading (text : List Char) : Reading :=
  match constantValue? text with
  | some n => .token (.int n)
  | none => .fault .invalidInteger

theorem integerReading_cases (text : List Char) :
    (∃ n, integerReading text = .token (.int n)) ∨
      integerReading text = .fault .invalidInteger := by
  unfold integerReading
  cases constantValue? text with
  | some n => exact .inl ⟨n, rfl⟩
  | none => exact .inr rfl

/-- Read the integer constant at the head of a text. -/
def integer (cs : List Char) : Lexeme :=
  let body := integerBody cs
  let tail := cs.drop body.length
  let suffix := integerSuffix tail
  { reading := integerReading (body ++ suffix)
    text := body ++ suffix
    rest := tail.drop suffix.length }

theorem integer_reading (cs : List Char) :
    (integer cs).reading = integerReading (integer cs).text := rfl

/-! ## Operators and comments -/

/-- Read an operator of one character, or report the character. -/
def single (c : Char) (cs : List Char) : Lexeme :=
  match Punct.ofChar? c with
  | some p => ⟨.token (.punct p), [c], cs⟩
  | none => ⟨.fault .unexpectedCharacter, [c], cs⟩

/-- Read a comment or an operator, or report the character. -/
def operator (c : Char) (cs : List Char) : Lexeme :=
  match cs with
  | [] => single c []
  | d :: tail =>
    if c = '/' && d = '/' then
      ⟨.gap, c :: d :: tail.takeWhile (· ≠ '\n'), tail.dropWhile (· ≠ '\n')⟩
    else
      match Punct.ofPair? c d with
      | some p => ⟨.token (.punct p), [c, d], tail⟩
      | none => single c cs

/-! ## Any lexeme -/

/-- The lexeme at the head of the text `c :: cs`. -/
def of (c : Char) (cs : List Char) : Lexeme :=
  if isGap c then ⟨.gap, c :: cs.takeWhile isGap, cs.dropWhile isGap⟩
  else if isWordStart c then
    let word := c :: cs.takeWhile isWordChar
    ⟨.token (.ofWord (String.ofList word)), word, cs.dropWhile isWordChar⟩
  else if c = '"' then ⟨.quote, [c], cs⟩
  else
    match float? (c :: cs) with
    | some lexeme => lexeme
    | none => if isDigit c then integer (c :: cs) else operator c cs

/-! ## Nothing is lost -/

/-- The lexeme and the text behind it make up `cs`, and the lexeme is not empty. -/
structure Splits (lexeme : Lexeme) (cs : List Char) : Prop where
  append : lexeme.text ++ lexeme.rest = cs
  text_ne : lexeme.text ≠ []

theorem append_of_exponent? {cs : List Char} {e : Exponent} (h : exponent? cs = some e) :
    e.text ++ e.rest = cs := by
  cases cs with
  | nil => simp [exponent?] at h
  | cons c cs =>
    simp only [exponent?] at h
    split at h
    · split at h
      all_goals
        split at h
        · simp at h
        · simp only [Option.some.injEq] at h
          subst h
          simp [List.takeWhile_append_dropWhile]
    · simp at h

theorem floatSuffix_append (cs : List Char) :
    floatSuffix cs ++ cs.drop (floatSuffix cs).length = cs := by
  unfold floatSuffix
  split <;> simp

theorem float_splits {whole fraction body cs : List Char} {e : Exponent} (hb : body ≠ [])
    (h : body ++ (e.text ++ e.rest) = cs) : (float whole fraction body e).Splits cs where
  append := by
    simp only [float, List.append_assoc, floatSuffix_append]
    exact h
  text_ne := by simp [float, hb]

theorem float?_splits {cs : List Char} {lexeme : Lexeme} (h : float? cs = some lexeme) :
    lexeme.Splits cs := by
  have hcs := List.takeWhile_append_dropWhile (p := isDigit) (l := cs)
  simp only [float?] at h
  split at h
  · rename_i tail htail
    rw [htail] at hcs
    have hfr := List.takeWhile_append_dropWhile (p := isDigit) (l := tail)
    have hcat : ∀ t, t = tail.dropWhile isDigit →
        cs.takeWhile isDigit ++ '.' :: tail.takeWhile isDigit ++ t = cs := by
      rintro _ rfl
      simp [hfr, hcs]
    split at h
    · simp at h
    · split at h
      · rename_i e he
        cases h
        exact float_splits (by simp) (hcat _ (append_of_exponent? he))
      · split at h
        · cases h
          exact ⟨hcat _ rfl, by simp⟩
        · cases h
          exact float_splits (by simp) (hcat _ (by simp))
  · split at h
    · simp at h
    · simp only [Option.map_eq_some_iff] at h
      obtain ⟨e, he, rfl⟩ := h
      exact float_splits ‹_› (by rw [append_of_exponent? he, hcs])

theorem integerSuffix_append (cs : List Char) :
    integerSuffix cs ++ cs.drop (integerSuffix cs).length = cs := by
  unfold integerSuffix
  cases h : integerSuffixes.find? fun suffix => cs.take suffix.length = suffix with
  | none => simp
  | some suffix =>
    have hs : cs.take suffix.length = suffix := by simpa using List.find?_some h
    calc suffix ++ cs.drop suffix.length
        = cs.take suffix.length ++ cs.drop suffix.length := by rw [hs]
      _ = cs := List.take_append_drop _ _

theorem integerBody_append (cs : List Char) :
    integerBody cs ++ cs.drop (integerBody cs).length = cs := by
  have key : ∀ (p : Char → Bool) (l : List Char),
      l.takeWhile p ++ l.drop (l.takeWhile p).length = l := by
    intro p l
    induction l with
    | nil => rfl
    | cons a l ih =>
      rw [List.takeWhile_cons]
      split <;> simp [ih]
  unfold integerBody
  split
  · dsimp only
    split <;> simp [key]
  · exact key _ _

theorem integer_splits {c : Char} {cs : List Char} (hc : isDigit c = true) :
    (integer (c :: cs)).Splits (c :: cs) where
  append := by
    simp only [integer, List.append_assoc, integerSuffix_append, integerBody_append]
  text_ne := by
    have : integerBody (c :: cs) ≠ [] := by
      unfold integerBody
      split
      · dsimp only
        split <;> simp_all
      · simp [hc]
    simp [integer, this]

theorem single_splits (c : Char) (cs : List Char) : (single c cs).Splits (c :: cs) := by
  unfold single
  split <;> exact ⟨rfl, by simp⟩

theorem operator_splits (c : Char) (cs : List Char) : (operator c cs).Splits (c :: cs) := by
  unfold operator
  split
  · exact single_splits c []
  · split
    · exact ⟨by simp [List.takeWhile_append_dropWhile], by simp⟩
    · split
      · exact ⟨rfl, by simp⟩
      · exact single_splits c _

theorem of_splits (c : Char) (cs : List Char) : (of c cs).Splits (c :: cs) := by
  unfold of
  split
  · exact ⟨by simp [List.takeWhile_append_dropWhile], by simp⟩
  · split
    · exact ⟨by simp [List.takeWhile_append_dropWhile], by simp⟩
    · split
      · exact ⟨rfl, by simp⟩
      · split
        · exact float?_splits ‹_›
        · split
          · exact integer_splits ‹_›
          · exact operator_splits c cs

theorem length_rest_of_lt (c : Char) (cs : List Char) :
    (of c cs).rest.length < (c :: cs).length := by
  have h := of_splits c cs
  have hlen := congrArg List.length h.append
  have hpos := List.length_pos_iff.2 h.text_ne
  simp only [List.length_append] at hlen
  omega

end Lexeme

end TinyC
