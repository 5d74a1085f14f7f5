import TinyC.Compile
import TinyC.Ir.Text
import TinyC.Program.Outline

/-!
# The command line

`[--tokens] [--ast] [--ir] [FILE]` prints the tokens of a source, the outline of its program, and
its module; the module alone if neither of the others is asked for. Without a file a built-in
program is compiled.

Everything here is a function of the arguments and of what reading the file gave. Reading and
printing themselves are left to the outermost layer.
-/

namespace TinyC.CommandLine

/-! ## Arguments -/

structure Options where
  tokens : Bool
  ast : Bool
  ir : Bool
  file : Option String
deriving DecidableEq, Repr

/-- The options without arguments. -/
def Options.initial : Options := ⟨false, false, false, none⟩

/-- Why arguments are not understood. -/
inductive UsageError
  | unknownArgument (arg : String)
  | repeatedFlag (flag : String)
  | valueForFlag (flag : String)
  | emptyPath
deriving DecidableEq, Repr

def UsageError.message : UsageError → String
  | .unknownArgument arg => s!"unexpected argument '{arg}' found"
  | .repeatedFlag flag => s!"the argument '{flag}' cannot be used multiple times"
  | .valueForFlag flag => s!"unexpected value for '{flag}' found; no more were expected"
  | .emptyPath => "a value is required for '[FILE]' but none was supplied"

/-- What the arguments ask for. -/
inductive Request
  | help
  | run (options : Options)
deriving DecidableEq, Repr

/-- Take an argument as the file. -/
def Options.setFile (o : Options) (arg : String) : Except UsageError Options :=
  if o.file.isSome then .error (.unknownArgument arg)
  else if arg.isEmpty then .error .emptyPath
  else .ok { o with file := some arg }

/-- Take an argument as a flag. -/
def Options.setFlag (o : Options) (flag : String) : Except UsageError Options :=
  match flag with
  | "--tokens" => if o.tokens then .error (.repeatedFlag flag) else .ok { o with tokens := true }
  | "--ast" => if o.ast then .error (.repeatedFlag flag) else .ok { o with ast := true }
  | "--ir" => if o.ir then .error (.repeatedFlag flag) else .ok { o with ir := true }
  | _ => .error (.unknownArgument flag)

def flags : List String := ["--tokens", "--ast", "--ir", "--help"]

/-- Read the arguments behind `--`, which are all files. -/
def parseFiles (o : Options) : List String → Except UsageError Options
  | [] => .ok o
  | arg :: args => do parseFiles (← o.setFile arg) args

/-- Read the arguments from left to right. A dash alone is a file. -/
def parseArgs (o : Options) : List String → Except UsageError Request
  | [] => .ok (.run o)
  | arg :: args =>
    let name := String.ofList (arg.toList.takeWhile (· ≠ '='))
    if arg = "--" then return .run (← parseFiles o args)
    else if arg = "--help" then .ok .help
    else if name ≠ arg && name ∈ flags then .error (.valueForFlag name)
    else
      match arg.toList with
      | '-' :: '-' :: _ => do parseArgs (← o.setFlag arg) args
      | '-' :: 'h' :: _ => .ok .help
      | '-' :: _ :: _ => .error (.unknownArgument arg)
      | _ => do parseArgs (← o.setFile arg) args

/-! ## Output -/

/-- What has been printed to the two output streams. -/
structure Output where
  stdout : String
  stderr : String
deriving DecidableEq, Repr

/-- Printing, which keeps what was printed before a failure. -/
abbrev PrintM := EStateM Error Output

def print (text : String) : PrintM Unit := modify fun o => { o with stdout := o.stdout ++ text }

def warn (text : String) : PrintM Unit := modify fun o => { o with stderr := o.stderr ++ text }

/-- Blanks that fill a text up to a width. -/
def padding (width : Nat) (text : String) : String :=
  String.ofList (List.replicate (width - text.length) ' ')

def padLeft (width : Nat) (text : String) : String := padding width text ++ text

def padRight (width : Nat) (text : String) : String := text ++ padding width text

/-- A token in the list of tokens. -/
def describe : Token → String
  | .int n => "Int(" ++ toString n.toNat ++ ")"
  | .float x => "Float(" ++ x.text ++ ")"
  | .str s => "Str(" ++ Text.quoted s ++ ")"
  | .ident name => "Ident(" ++ Text.quoted name ++ ")"
  | .keyword k => "Keyword(" ++ k.tag ++ ")"
  | .punct p => p.tag

/-- The line of an item in the list of tokens. -/
def itemLine : Item → String
  | .ok t =>
    padLeft 5 (toString t.start) ++ ".." ++ padRight 5 (toString t.stop) ++ " " ++
      describe t.value ++ "\n"
  | .error e => padLeft 5 (toString e.location) ++ "..      <error: " ++ e.fault.tag ++ ">\n"

def warnAll (diagnostics : List LexicalError) : PrintM Unit :=
  diagnostics.forM fun d => warn ("warning: " ++ d.message ++ "\n")

/-- Print what the options ask for. -/
def printAll (o : Options) (source : String) : PrintM Unit := do
  if o.tokens then
    (tokenize source).forM fun item => print (itemLine item)
    print "\n"
  if o.ast then
    let parsed ← MonadExcept.ofExcept (parse source)
    warnAll parsed.diagnostics
    print (parsed.program.outline.text 0 ++ "\n\n")
  if o.ir || !(o.tokens || o.ast) then
    let compilation ← MonadExcept.ofExcept (compile source)
    unless o.ast do warnAll compilation.diagnostics
    print compilation.module.text

/-! ## Runs -/

/-- Why a file could not be read. -/
inductive ReadError
  | notFound
  | isDirectory
  | invalidUtf8
  | other (message : String)
deriving DecidableEq, Repr

def ReadError.message : ReadError → String
  | .notFound => "No such file or directory (os error 2)"
  | .isDirectory => "Is a directory (os error 21)"
  | .invalidUtf8 => "stream did not contain valid UTF-8"
  | .other message => message

/-- The exit code of a run and what it printed. -/
structure Report where
  exitCode : UInt8
  output : Output
deriving DecidableEq, Repr

/-- The text of an error and of the error inside it. -/
def errorChain (e : Error) : String :=
  match e.cause? with
  | some cause => e.message ++ ": " ++ cause
  | none => e.message

/-- Run on a source. -/
def runOn (o : Options) (source : String) : Report :=
  match printAll o source ⟨"", ""⟩ with
  | .ok _ output => ⟨0, output⟩
  | .error e output =>
    ⟨1, { output with stderr := output.stderr ++ "error: " ++ errorChain e ++ "\n" }⟩

/-- The program that is compiled when no file is given. -/
def sample : String :=
  "int main() \x7b
    int total = 0;
    float scale = 2.5;

    for (int x = 5; x < 10; x = x + 1)
        total = total + x;

    while (total > 0 && scale < 100.0) \x7b
        scale = scale * 2;
        total = total - 7;
    \x7d

    if (total == 0) total = 1; else total = total % 3;
\x7d"

def usage : String := "Usage: tinyc [--tokens] [--ast] [--ir] [FILE]\n"

/-- The report on arguments that are not understood. -/
def usageReport (e : UsageError) : Report :=
  ⟨2, ⟨"", "error: " ++ e.message ++ "\n\n" ++ usage⟩⟩

/-- Run on what reading a file gave. -/
def runOnFile (o : Options) (path : String) : Except ReadError ByteArray → Report
  | .error e => ⟨1, ⟨"", s!"error: reading '{path}': {e.message}\n"⟩⟩
  | .ok bytes =>
    match String.fromUTF8? bytes with
    | some source => runOn o source
    | none => ⟨1, ⟨"", s!"error: reading '{path}': {ReadError.invalidUtf8.message}\n"⟩⟩

/-- Run with the given arguments; `read` reads a file. -/
def run {m : Type → Type} [Monad m] (read : String → m (Except ReadError ByteArray))
    (args : List String) : m Report := do
  match parseArgs .initial args with
  | .error e => return usageReport e
  | .ok .help => return ⟨0, ⟨usage, ""⟩⟩
  | .ok (.run o) =>
    match o.file with
    | some path => return runOnFile o path (← read path)
    | none => return runOn o sample

end TinyC.CommandLine
