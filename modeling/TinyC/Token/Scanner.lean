import TinyC.Token.Lexeme

/-!
# The token stream

A `Scanner` walks a text once and yields tokens and faults in order. It reports every fault and
goes on behind it, except that a string literal without an end is the last thing it finds.

Outside string literals it moves from lexeme to lexeme. Inside one it moves from character to
character: a backslash takes a quote or a backslash with it, and a line feed or any other backslash
is reported, but stays part of the literal.

`tokenize` is the whole stream, with faults turned into errors that quote the source.
-/

namespace TinyC

/-- Where a scan stands. -/
inductive Mode
  | normal
  /-- Inside the string literal that opens at byte `start`. What has been read of it is `text`,
  latest character first. -/
  | inString (start : Nat) (text : List Char)
  /-- Behind the last finding. -/
  | finished
deriving DecidableEq, Repr

def Mode.isInString : Mode → Bool
  | .inString .. => true
  | _ => false

/-- A token or a fault, with the characters it is made of and the byte offset where they start. -/
structure Finding where
  start : Nat
  text : List Char
  found : Except LexicalFault Token

def Finding.stop (f : Finding) : Nat := f.start + Text.byteSize f.text

structure Scanner where
  mode : Mode
  /-- The byte offset of `rest`. -/
  offset : Nat
  /-- The text still to be read. -/
  rest : List Char

namespace Scanner

/-- The scanner at the start of a source. -/
def start (source : List Char) : Scanner := ⟨.normal, 0, source⟩

/-! ## One finding -/

/-- The next finding inside a string literal. -/
def nextInString (start : Nat) (text : List Char) (offset : Nat) :
    List Char → Finding × Scanner
  | [] => (⟨start, text.reverse, .error .unterminatedString⟩, ⟨.finished, offset, []⟩)
  | '"' :: rest =>
    let text := ('"' :: text).reverse
    (⟨start, text, .ok (.str (String.ofList text))⟩, ⟨.normal, offset + 1, rest⟩)
  | '\\' :: '"' :: rest => nextInString start ('"' :: '\\' :: text) (offset + 2) rest
  | '\\' :: '\\' :: rest => nextInString start ('\\' :: '\\' :: text) (offset + 2) rest
  | c :: rest =>
    if c = '\\' || c = '\n' then
      (⟨offset, [c], .error .unexpectedCharacter⟩,
        ⟨.inString start (c :: text), offset + c.utf8Size, rest⟩)
    else nextInString start (c :: text) (offset + c.utf8Size) rest

/-- The next finding outside string literals. -/
def nextNormal (offset : Nat) (cs : List Char) : Option Finding × Scanner :=
  match cs with
  | [] => (none, ⟨.finished, offset, []⟩)
  | c :: cs =>
    let lexeme := Lexeme.of c cs
    let behind := offset + Text.byteSize lexeme.text
    match lexeme.reading with
    | .gap => nextNormal behind lexeme.rest
    | .quote =>
      let (finding, scanner) := nextInString offset [c] behind lexeme.rest
      (some finding, scanner)
    | .token t => (some ⟨offset, lexeme.text, .ok t⟩, ⟨.normal, behind, lexeme.rest⟩)
    | .fault f => (some ⟨offset, lexeme.text, .error f⟩, ⟨.normal, behind, lexeme.rest⟩)
termination_by cs.length
decreasing_by exact Lexeme.length_rest_of_lt c cs

/-- The next finding, if there is one, and the scanner behind it. -/
def next (s : Scanner) : Option Finding × Scanner :=
  match s.mode with
  | .normal => nextNormal s.offset s.rest
  | .inString start text =>
    let (finding, scanner) := nextInString start text s.offset s.rest
    (some finding, scanner)
  | .finished => (none, s)

@[simp] theorem next_finished (offset : Nat) (rest : List Char) :
    (⟨.finished, offset, rest⟩ : Scanner).next = (none, ⟨.finished, offset, rest⟩) := rfl

/-! ## All findings -/

/-- A bound on the findings to come. -/
def remaining (s : Scanner) : Nat :=
  s.rest.length + if s.mode = .finished then 0 else 1

theorem remaining_nextInString_le (start : Nat) (text : List Char) (offset : Nat)
    (cs : List Char) : (nextInString start text offset cs).2.remaining ≤ cs.length := by
  fun_induction nextInString start text offset cs with
  | case1 => simp [remaining]
  | case2 => simp [remaining]
  | case3 text offset rest ih => simp only [List.length_cons]; omega
  | case4 text offset rest ih => simp only [List.length_cons]; omega
  | case5 text offset c rest => simp [remaining]
  | case6 text offset c rest _ _ _ _ ih => simp only [List.length_cons]; omega

theorem remaining_nextNormal_le (offset : Nat) (cs : List Char) :
    (nextNormal offset cs).2.remaining ≤ cs.length := by
  fun_induction nextNormal offset cs with
  | case1 => simp [remaining]
  | case2 offset c cs lexeme behind _ ih =>
    have := Lexeme.length_rest_of_lt c cs
    exact Nat.le_trans ih (Nat.le_of_lt this)
  | case3 offset c cs lexeme behind _ finding scanner h =>
    have hle := remaining_nextInString_le offset [c] behind lexeme.rest
    have := Lexeme.length_rest_of_lt c cs
    rw [h] at hle
    exact Nat.le_trans hle (Nat.le_of_lt this)
  | case4 offset c cs lexeme behind t _ =>
    have := Lexeme.length_rest_of_lt c cs
    simp only [remaining]
    exact this
  | case5 offset c cs lexeme behind f _ =>
    have := Lexeme.length_rest_of_lt c cs
    simp only [remaining]
    exact this

theorem remaining_next_lt {s s' : Scanner} {f : Finding} (h : s.next = (some f, s')) :
    s'.remaining < s.remaining := by
  obtain ⟨mode, offset, rest⟩ := s
  cases mode with
  | normal =>
    have hle := remaining_nextNormal_le offset rest
    simp only [next] at h
    rw [h] at hle
    simp only [remaining] at hle ⊢
    simpa using Nat.lt_succ_of_le hle
  | inString start text =>
    have hle := remaining_nextInString_le start text offset rest
    simp only [next, Prod.mk.injEq, Option.some.injEq] at h
    rw [h.2] at hle
    simp only [remaining] at hle ⊢
    simpa using Nat.lt_succ_of_le hle
  | finished => simp [next] at h

/-- The findings to come, each with the scanner behind it. -/
def findings (s : Scanner) : List (Finding × Scanner) :=
  match _h : s.next with
  | (none, _) => []
  | (some finding, s') => (finding, s') :: s'.findings
termination_by s.remaining
decreasing_by exact remaining_next_lt _h

end Scanner

/-! ## Items -/

/-- What the stream yields: a token with its span, or an error. -/
abbrev Item := Except LexicalError (Spanned Token)

/-- The item for a finding in a source. -/
def Finding.toItem (source : List Char) (f : Finding) : Item :=
  match f.found with
  | .ok token => .ok ⟨f.start, token, f.stop⟩
  | .error fault => .error (.report source fault f.start f.text)

/-- The items of a source, in order. -/
def tokenize (source : String) : List Item :=
  let text := source.toList
  (Scanner.start text).findings.map fun (finding, _) => finding.toItem text

end TinyC
