import TinyC.Error
import TinyC.Parser.Statement
import TinyC.Token.Scanner

/-!
# Parsing

A `Machine` reads tokens one by one. Run on the items of a source it yields its result, or the error
at the first item it cannot take. It asks for an item only when it needs one, so what lies behind
the first wrong item is never looked at. Errors of the scanner that do not disturb the machine are
put aside on the way.

The message about a refused token lists the terminals that the machine would have taken. One case
lists fewer: a token that can close some expression completes the operand before it, so that behind
it only the loosest operator and the right closer are still considered. The grammar does not fix
these lists. They reproduce what a parser generated from it as a table is observed to name.
-/

namespace TinyC

/-! ## Machines -/

/-- A reader that takes one token at a time. -/
structure Machine (σ α : Type) where
  start : σ
  feed : σ → Token → Option σ
  /-- The result, if the tokens taken so far are complete. -/
  result? : σ → Option α
  /-- The terminals to name when a token, or the end of the input, is refused. -/
  expected : σ → Option Token → List Terminal

namespace Machine

variable {σ α : Type}

/-- Read items from a state on, one after the other. The last token taken ended at byte `behind`.
Errors that `skips` holds of are put aside in order, also if the run fails later on. -/
def run (m : Machine σ α) (skips : LexicalError → Bool) (source : List Char) (state : σ)
    (behind : Nat) : List Item → EStateM Error (List LexicalError) α
  | [] =>
    match m.result? state with
    | some result => pure result
    | none => throw (.syntactic (.report source behind none (m.expected state none)))
  | .error e :: items =>
    if skips e then do
      modify (· ++ [e])
      m.run skips source state behind items
    else throw (.lexical e)
  | .ok token :: items =>
    match m.feed state token.value with
    | some state => m.run skips source state token.stop items
    | none =>
      throw (.syntactic (.report source token.start token.value (m.expected state token.value)))

/-- Read the items of a source, with the errors put aside on the way. -/
def collect (m : Machine σ α) (skips : LexicalError → Bool) (source : List Char)
    (items : List Item) : EStateM.Result Error (List LexicalError) α :=
  m.run skips source m.start 0 items []

/-- What a run ends in, without the errors put aside. -/
def outcome : EStateM.Result Error (List LexicalError) α → Except Error α
  | .ok a _ => .ok a
  | .error e _ => .error e

/-- Read the items of a source, in which every error counts. -/
def parse (m : Machine σ α) (source : List Char) (items : List Item) : Except Error α :=
  outcome (m.collect (fun _ => false) source items)

end Machine

/-- The terminals of which a token would be taken. -/
def acceptable {σ : Type} (feed : σ → Token → Option σ) (state : σ) : List Terminal :=
  Terminal.all.filter fun t => (feed state t.sample).isSome

/-! ## Expressions -/

/-- The terminals to name behind an expression that stands alone. Behind an operand a parenthesis
that closes nothing and the end of the input count as closing tokens; the lists behind these are the
observed output of the generated parser. -/
def ExprState.expected (state : ExprState) (found : Option Token) : List Terminal :=
  if state.isOperator && (found = none || found = some (.punct .rparen)) then
    if state.result?.isSome then [.punct .orOr] else [.punct .orOr, .punct .rparen]
  else acceptable ExprState.feed state

def expressionMachine : Machine ExprState Expr where
  start := .start
  feed := ExprState.feed
  result? := ExprState.result?
  expected := ExprState.expected

/-! ## Programs -/

/-- The terminals to name behind a complete expression and a wrong closing token. An assignment is
complete together with its expression. The lists are the observed output of the generated parser,
and do not follow from the grammar. -/
def Goal.expectedClosers : Goal → List Terminal
  | .assigned _ => [.punct .semicolon]
  | .forStep .. => [.punct .rparen]
  | goal => [.punct .orOr, .punct goal.closer]

/-- The terminals to name in a program. Behind an operand `)` and `;` count as closing tokens; that
they do, and what is named then, is the observed output of the generated parser. -/
def State.expected (state : State) (found : Option Token) : List Terminal :=
  match state with
  | .expr goal _ e =>
    if e.isOperator &&
        (found = some (.punct .rparen) || found = some (.punct .semicolon)) then
      if e.result?.isSome then goal.expectedClosers else [.punct .orOr, .punct .rparen]
    else acceptable State.feed state
  | state => acceptable State.feed state

def programMachine : Machine State Program where
  start := .start
  feed := State.feed
  result? := State.result?
  expected := State.expected

/-! ## Sources -/

/-- A program and the errors that the scanner skipped on the way. -/
structure Parsed where
  program : Program
  diagnostics : List LexicalError

/-- Parse the text of a program. Errors that the scanner can skip do not disturb the parser; the
result holds those that it has come across. -/
def parse (source : String) : Except Error Parsed :=
  match programMachine.collect LexicalError.isRecoverable source.toList (tokenize source) with
  | .ok program diagnostics => .ok ⟨program, diagnostics⟩
  | .error e _ => .error e

/-- Parse the text of an expression. Every lexical error in it is fatal. -/
def parseExpression (source : String) : Except Error Expr :=
  expressionMachine.parse source.toList (tokenize source)

end TinyC
