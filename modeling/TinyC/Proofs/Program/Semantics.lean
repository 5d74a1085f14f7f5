import TinyC.Program
import TinyC.Proofs.Numeral.Arithmetic
import TinyC.Proofs.Program.Scope

/-!
# The meaning of programs

Expressions are evaluated and statements run over one flat store, which holds a value of the
declared type for every variable from the beginning on. A declaration without an initial value
leaves the variable as it is.

A run that traps or does not end has no final store: `Runs` relates a store only to what a run from
it ends in.
-/

namespace TinyC

/-! ## Values -/

/-- What a variable holds. -/
inductive Val
  | int (n : Int32)
  | float (x : Binary32)
deriving DecidableEq, Repr

namespace Val

def ty : Val → Ty
  | .int _ => .int
  | .float _ => .float

def toFloat : Val → Binary32
  | .int n => .ofInt n.toInt
  | .float x => x

/-- A value in the type of a variable. -/
def convert : Ty → Val → Val
  | .int, .float x => .int x.toInt32
  | .int, .int n => .int n
  | .float, v => .float v.toFloat

/-- Comparisons count as zero and one. -/
def ofBool (b : Bool) : Val := .int (if b then 1 else 0)

end Val

/-! ## Operators -/

namespace ArithOp

def ints (P : Primitives) : ArithOp → Int32 → Int32 → Option Int32
  | .add, a, b => some (a + b)
  | .sub, a, b => some (a - b)
  | .mul, a, b => some (a * b)
  | .div, a, b => P.divide a b
  | .rem, a, b => P.remainder a b

def floats (P : Primitives) : ArithOp → Binary32 → Binary32 → Option Binary32
  | .add => P.floatAdd
  | .sub => P.floatSub
  | .mul => P.floatMul
  | .div => P.floatDiv
  | .rem => P.floatRem

/-- Mixed operands are computed in floats. -/
def eval (P : Primitives) (op : ArithOp) : Val → Val → Option Val
  | .int a, .int b => (op.ints P a b).map .int
  | a, b => (op.floats P a.toFloat b.toFloat).map .float

end ArithOp

namespace CompareOp

def ints : CompareOp → Int32 → Int32 → Bool
  | .lt, a, b => a < b
  | .le, a, b => a ≤ b
  | .gt, a, b => b < a
  | .ge, a, b => b ≤ a
  | .eq, a, b => a = b
  | .ne, a, b => a ≠ b

def floats : CompareOp → Binary32 → Binary32 → Bool
  | .lt, x, y => x.less y
  | .le, x, y => x.less y || x.same y
  | .gt, x, y => y.less x
  | .ge, x, y => y.less x || x.same y
  | .eq, x, y => x.same y
  | .ne, x, y => x.less y || y.less x

def eval (op : CompareOp) : Val → Val → Bool
  | .int a, .int b => op.ints a b
  | a, b => op.floats a.toFloat b.toFloat

end CompareOp

/-- Whether a value differs from zero. -/
def Val.truth (v : Val) : Bool := CompareOp.ne.eval v (.int 0)

@[simp] theorem Val.truth_ofBool (b : Bool) : (Val.ofBool b).truth = b := by
  cases b with
  | false => rfl
  | true => rfl

theorem Val.ofBool_injective : Function.Injective Val.ofBool :=
  Function.LeftInverse.injective Val.truth_ofBool

/-- For a constant it is enough to look at the pattern. -/
theorem Val.truth_float {x : Binary32} (h : x.isNaN = false) :
    (Val.float x).truth = !x.isZero := by
  -- The integer zero is converted before it is compared with.
  have hzero : (Val.int 0).toFloat = .zero := Binary.ofInt_ofBool false
  rw [← Binary.less_or_less_zero h, ← hzero]
  rfl

def LogicOp.eval : LogicOp → Bool → Bool → Bool
  | .and, a, b => a && b
  | .or, a, b => a || b

def Operator.eval (P : Primitives) : Operator → Val → Val → Option Val
  | .arith op, a, b => op.eval P a b
  | .compare op, a, b => some (.ofBool (op.eval a b))
  | .logic op, a, b => some (.ofBool (op.eval a.truth b.truth))

/-! ## Expressions -/

/-- The values of the variables. -/
abbrev Store := String → Option Val

/-- The store holds a value of the declared type for every variable of a scope, and no other. -/
def Store.Typed (Γ : Scope) (S : Store) : Prop := ∀ name, (S name).map Val.ty = Γ.lookup name

def Store.set (S : Store) (name : String) (v : Val) : Store := Function.update S name (some v)

namespace Expr

/-- Both sides of an operator are evaluated, whatever the operator. -/
def eval (P : Primitives) (S : Store) : Expr → Option Val
  | .int n => some (.int n.toUInt32.toInt32)
  | .float x => some (.float x.narrow)
  | .var name => S name
  | .binary op lhs rhs => do
    let a ← lhs.eval P S
    let b ← rhs.eval P S
    op.eval P a b

def test (P : Primitives) (S : Store) (e : Expr) : Option Bool := (e.eval P S).map Val.truth

/-- No constant is anything but a number. -/
def Numeric : Expr → Prop
  | .int _ | .var _ => True
  | .float x => x.isNaN = false
  | .binary _ lhs rhs => lhs.Numeric ∧ rhs.Numeric

end Expr

/-! ## Statements -/

namespace Decl

def Runs (P : Primitives) (d : Decl) (S S' : Store) : Prop :=
  match d.initial with
  | none => S' = S
  | some e => ∃ v, e.eval P S = some v ∧ S' = S.set d.name (v.convert d.ty)

def RunsAll (P : Primitives) : List Decl → Store → Store → Prop
  | [], S, S' => S' = S
  | d :: decls, S, S' => ∃ S₁, d.Runs P S S₁ ∧ RunsAll P decls S₁ S'

def Numeric (d : Decl) : Prop := ∀ e ∈ d.initial, e.Numeric

end Decl

/-- A variable keeps the type that it holds a value of. -/
def Assign.Runs (P : Primitives) (a : Assign) (S S' : Store) : Prop :=
  ∃ v old, a.value.eval P S = some v ∧ S a.name = some old ∧ S' = S.set a.name (v.convert old.ty)

/-- Make passes as long as a test holds. -/
inductive Iterates (test : Store → Option Bool) (pass : Store → Store → Prop) : Store → Store → Prop
  | done {S} : test S = some false → Iterates test pass S S
  | again {S S₁ S'} : test S = some true → pass S S₁ → Iterates test pass S₁ S' →
    Iterates test pass S S'

namespace Stmt

mutual

def Runs (P : Primitives) : Stmt → Store → Store → Prop
  | .decl d => d.Runs P
  | .assign a => a.Runs P
  | .ifThen cond body => fun S S' =>
    (cond.test P S = some true ∧ RunsAll P body S S') ∨ (cond.test P S = some false ∧ S' = S)
  | .ifElse cond thenBody elseBody => fun S S' =>
    (cond.test P S = some true ∧ RunsAll P thenBody S S') ∨
      (cond.test P S = some false ∧ RunsAll P elseBody S S')
  | .while_ cond body => Iterates (cond.test P) (RunsAll P body)
  | .for_ init cond step body => fun S S' =>
    ∃ S₁, init.Runs P S S₁ ∧
      Iterates (cond.test P) (fun S S' => ∃ S₂, RunsAll P body S S₂ ∧ step.Runs P S₂ S') S₁ S'
  | .block body => RunsAll P body
  | .empty => fun S S' => S' = S

def RunsAll (P : Primitives) : List Stmt → Store → Store → Prop
  | [] => fun S S' => S' = S
  | s :: body => fun S S' => ∃ S₁, s.Runs P S S₁ ∧ RunsAll P body S₁ S'

end

mutual

def Numeric : Stmt → Prop
  | .decl d => d.Numeric
  | .assign a => a.value.Numeric
  | .ifThen cond body => cond.Numeric ∧ NumericAll body
  | .ifElse cond thenBody elseBody => cond.Numeric ∧ NumericAll thenBody ∧ NumericAll elseBody
  | .while_ cond body => cond.Numeric ∧ NumericAll body
  | .for_ init cond step body => init.Numeric ∧ cond.Numeric ∧ NumericAll body ∧ step.value.Numeric
  | .block body => NumericAll body
  | .empty => True

def NumericAll : List Stmt → Prop
  | [] => True
  | s :: body => s.Numeric ∧ NumericAll body

end

end Stmt

namespace Program

def Runs (P : Primitives) (p : Program) (S S' : Store) : Prop :=
  ∃ S₁, Decl.RunsAll P p.declarations S S₁ ∧ Stmt.RunsAll P p.statements S₁ S'

/-- No constant of the program is anything but a number, as no source text spells one. -/
def Numeric (p : Program) : Prop :=
  (∀ d ∈ p.declarations, d.Numeric) ∧ Stmt.NumericAll p.statements

end Program

end TinyC
