import TinyC.Parser.Expression

/-!
# Reading a program token by token

The state of a half-read program says where the next statement goes (`Place`), and how far the
statement being read has come (`State`). Every token moves the state or is refused, so a refused
token is the first at which the source stops being the start of a program.

An `else` belongs to the nearest `if` that can still take one: the then-arm of an `if` stays open
until the token behind it is seen.
-/

namespace TinyC

/-! ## Places -/

/-- Where the next statement goes: in a list of statements, latest first, or as the body of a
control statement. -/
inductive Place
  /-- In the body of the program. -/
  | body (name : String) (before : List Stmt)
  /-- In a block. -/
  | block (before : List Stmt) (outer : Place)
  | thenArm (cond : Expr) (outer : Place)
  | elseArm (cond : Expr) (thenBody : List Stmt) (outer : Place)
  | whileBody (cond : Expr) (outer : Place)
  | forBody (init : Decl) (cond : Expr) (step : Assign) (outer : Place)

namespace Place

/-- The place behind a statement that no `else` follows. It completes the control statements whose
body it is. -/
def put (s : Stmt) : Place → Place
  | .body name before => .body name (s :: before)
  | .block before outer => .block (s :: before) outer
  | .thenArm cond outer => outer.put (.ifThen cond s.toBody)
  | .elseArm cond thenBody outer => outer.put (.ifElse cond thenBody s.toBody)
  | .whileBody cond outer => outer.put (.while_ cond s.toBody)
  | .forBody init cond step outer => outer.put (.for_ init cond step s.toBody)

/-- The place behind a statement and an `else`: the other arm of the nearest `if` that the
statement is, or ends, the then-arm of. -/
def putElse? (s : Stmt) : Place → Option Place
  | .body .. | .block .. => none
  | .thenArm cond outer => some (.elseArm cond s.toBody outer)
  | .elseArm cond thenBody outer => outer.putElse? (.ifElse cond thenBody s.toBody)
  | .whileBody cond outer => outer.putElse? (.while_ cond s.toBody)
  | .forBody init cond step outer => outer.putElse? (.for_ init cond step s.toBody)

end Place

/-! ## States -/

/-- Where a declaration stands. -/
inductive DeclSite
  | statement
  | forHead
deriving DecidableEq, Repr

/-- What the expression being read is for. -/
inductive Goal
  | initial (ty : Ty) (name : String) (site : DeclSite)
  | assigned (name : String)
  | ifCond
  | whileCond
  | forCond (init : Decl)
  | forStep (init : Decl) (cond : Expr) (name : String)
deriving DecidableEq, Repr

/-- The state of a half-read program. -/
inductive State
  /-- Nothing has been read. -/
  | start
  /-- `int` -/
  | typed
  /-- `int name` -/
  | named (name : String)
  /-- `int name (` -/
  | opened (name : String)
  /-- `int name ( )` -/
  | closed (name : String)
  /-- A statement may start, and a list of statements may end. -/
  | statement (place : Place)
  /-- A statement has just ended. -/
  | after (s : Stmt) (place : Place)
  /-- A declaration awaits its name. -/
  | declName (ty : Ty) (site : DeclSite) (place : Place)
  /-- A declaration awaits its initial value or its end. -/
  | declRest (ty : Ty) (name : String) (site : DeclSite) (place : Place)
  /-- An assignment awaits its `=`. -/
  | assignRest (name : String) (place : Place)
  /-- An `if` or `while` awaits its parenthesis. -/
  | condOpen (goal : Goal) (place : Place)
  /-- A `for` awaits its parenthesis. -/
  | forOpen (place : Place)
  /-- A `for` awaits its declaration. -/
  | forDecl (place : Place)
  /-- A `for` awaits the name that its step assigns. -/
  | stepName (init : Decl) (cond : Expr) (place : Place)
  /-- A `for` awaits the `=` of its step. -/
  | stepRest (init : Decl) (cond : Expr) (name : String) (place : Place)
  /-- An expression is being read. -/
  | expr (goal : Goal) (place : Place) (state : ExprState)
  /-- The program is complete. -/
  | done (program : Program)

/-- The state behind a declaration. -/
def DeclSite.finish (d : Decl) (place : Place) : DeclSite → State
  | .statement => .after (.decl d) place
  | .forHead => .expr (.forCond d) place .start

namespace Goal

/-- The operator that ends the expression. -/
def closer : Goal → Punct
  | .initial .. | .assigned _ | .forCond _ => .semicolon
  | .ifCond | .whileCond | .forStep .. => .rparen

/-- The state behind the expression and its closer. -/
def finish (e : Expr) (place : Place) : Goal → State
  | .initial ty name site => site.finish ⟨ty, name, some e⟩ place
  | .assigned name => .after (.assign ⟨name, e⟩) place
  | .ifCond => .statement (.thenArm e place)
  | .whileCond => .statement (.whileBody e place)
  | .forCond init => .stepName init e place
  | .forStep init cond name => .statement (.forBody init cond ⟨name, e⟩ place)

end Goal

/-! ## Steps -/

/-- Take the first token of a statement, or the brace that ends a list of statements. -/
def Place.feed : Place → Token → Option State
  | place, .keyword .int => some (.declName .int .statement place)
  | place, .keyword .float => some (.declName .float .statement place)
  | place, .keyword .if_ => some (.condOpen .ifCond place)
  | place, .keyword .while_ => some (.condOpen .whileCond place)
  | place, .keyword .for_ => some (.forOpen place)
  | place, .ident name => some (.assignRest name place)
  | place, .punct .lbrace => some (.statement (.block [] place))
  | place, .punct .semicolon => some (.after .empty place)
  | .body name before, .punct .rbrace => some (.done (.ofItems name before.reverse))
  | .block before outer, .punct .rbrace => some (.after (.block before.reverse) outer)
  | _, _ => none

namespace State

/-- Take one token, unless it cannot continue the program. -/
def feed : State → Token → Option State
  | .start, .keyword .int => some .typed
  | .typed, .ident name => some (.named name)
  | .named name, .punct .lparen => some (.opened name)
  | .opened name, .punct .rparen => some (.closed name)
  | .closed name, .punct .lbrace => some (.statement (.body name []))
  | .statement place, t => place.feed t
  | .after s place, t =>
    if t = .keyword .else_ then (place.putElse? s).map .statement else (place.put s).feed t
  | .declName ty site place, .ident name => some (.declRest ty name site place)
  | .declRest ty name site place, .punct .assign =>
    some (.expr (.initial ty name site) place .start)
  | .declRest ty name site place, .punct .semicolon => some (site.finish ⟨ty, name, none⟩ place)
  | .assignRest name place, .punct .assign => some (.expr (.assigned name) place .start)
  | .condOpen goal place, .punct .lparen => some (.expr goal place .start)
  | .forOpen place, .punct .lparen => some (.forDecl place)
  | .forDecl place, .keyword .int => some (.declName .int .forHead place)
  | .forDecl place, .keyword .float => some (.declName .float .forHead place)
  | .stepName init cond place, .ident name => some (.stepRest init cond name place)
  | .stepRest init cond name place, .punct .assign =>
    some (.expr (.forStep init cond name) place .start)
  | .expr goal place e, t =>
    match e.feed t with
    | some e => some (.expr goal place e)
    | none => if t = .punct goal.closer then e.result?.map (goal.finish · place) else none
  | _, _ => none

/-- The program read, if it is complete. -/
def result? : State → Option Program
  | .done program => some program
  | _ => none

end State

end TinyC
