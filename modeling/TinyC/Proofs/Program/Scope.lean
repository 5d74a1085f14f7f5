import Mathlib
import TinyC.Error
import TinyC.Program

/-!
# Declaration before use

A program mentions names in the order of its text: it declares them, uses them in expressions and
assigns to them. A declaration is mentioned before its initial value, the target of an assignment
before its value, and the step of a loop behind its body. One flat scope goes through all mentions:
a name is declared at most once, and before it is used.
-/

namespace TinyC

/-- What is done to a name. -/
inductive Mention
  | declare (name : String) (ty : Ty)
  | use (name : String)
  | assign (name : String)
deriving DecidableEq, Repr

/-! ## Scopes -/

/-- The variables declared so far with their types, latest first. -/
abbrev Scope := List (String × Ty)

abbrev Checked := Except SemanticError

namespace Scope

/-- The scope behind a mention that the rules allow. -/
def allow (Γ : Scope) : Mention → Checked Scope
  | .declare name ty =>
    match Γ.lookup name with
    | some existing => .error (.redeclared name existing)
    | none => .ok ((name, ty) :: Γ)
  | .use name =>
    match Γ.lookup name with
    | some _ => .ok Γ
    | none => .error (.undeclaredUse name)
  | .assign name =>
    match Γ.lookup name with
    | some _ => .ok Γ
    | none => .error (.undeclaredTarget name)

/-- The scope behind all mentions, or the first violation. -/
def allowAll (Γ : Scope) (mentions : List Mention) : Checked Scope := mentions.foldlM allow Γ

theorem allowAll_cons (Γ : Scope) (m : Mention) (mentions : List Mention) :
    Γ.allowAll (m :: mentions) = (do allowAll (← Γ.allow m) mentions) := by
  simp only [allowAll, List.foldlM_cons]

theorem allowAll_append (Γ : Scope) (mentions mentions' : List Mention) :
    Γ.allowAll (mentions ++ mentions') = (do allowAll (← Γ.allowAll mentions) mentions') := by
  simp only [allowAll, List.foldlM_append]

end Scope

/-! ## Mentions in programs -/

def Expr.mentions : Expr → List Mention
  | .int _ | .float _ => []
  | .var name => [.use name]
  | .binary _ lhs rhs => lhs.mentions ++ rhs.mentions

def Decl.mentions (d : Decl) : List Mention :=
  .declare d.name d.ty :: d.initial.toList.flatMap Expr.mentions

def Assign.mentions (a : Assign) : List Mention := .assign a.name :: a.value.mentions

namespace Stmt

mutual

def mentions : Stmt → List Mention
  | .decl d => d.mentions
  | .assign a => a.mentions
  | .ifThen cond body => cond.mentions ++ mentionsAll body
  | .ifElse cond thenBody elseBody =>
    cond.mentions ++ (mentionsAll thenBody ++ mentionsAll elseBody)
  | .while_ cond body => cond.mentions ++ mentionsAll body
  -- The step is lowered behind the body, though it is written before it.
  | .for_ init cond step body =>
    init.mentions ++ (cond.mentions ++ (mentionsAll body ++ step.mentions))
  | .block body => mentionsAll body
  | .empty => []

def mentionsAll : List Stmt → List Mention
  | [] => []
  | s :: body => s.mentions ++ mentionsAll body

end

end Stmt

namespace Program

def mentions (p : Program) : List Mention :=
  p.declarations.flatMap Decl.mentions ++ Stmt.mentionsAll p.statements

/-- Check a whole program, from the empty scope on. -/
def check (p : Program) : Checked Scope := Scope.allowAll [] p.mentions

example : (⟨"main", [⟨.int, "x", some (.var "x")⟩], []⟩ : Program).check = .ok [("x", .int)] :=
  rfl

example : (⟨"main", [⟨.int, "x", none⟩, ⟨.float, "x", some (.var "y")⟩], []⟩ : Program).check =
    .error (.redeclared "x" .int) :=
  rfl

end Program

end TinyC
