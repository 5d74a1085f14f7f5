import TinyC.Proofs.Parser.Statement

/-!
# Printing

A program is printed as a sequence of tokens. Every body of a control statement stands in braces,
and an operand stands in parentheses only where the operators around it would take it apart.

What is printed has a derivation whose value is the program it was printed from, so the parsers
read it back.
-/

namespace TinyC

open Grammar

/-! ## Expressions -/

namespace Operator

/-- How the operator is written. -/
def punct : Operator → Punct
  | .logic .or => .orOr
  | .logic .and => .andAnd
  | .compare .eq => .eqEq
  | .compare .ne => .ne
  | .compare .lt => .lt
  | .compare .le => .le
  | .compare .gt => .gt
  | .compare .ge => .ge
  | .arith .add => .plus
  | .arith .sub => .minus
  | .arith .mul => .star
  | .arith .div => .slash
  | .arith .rem => .percent

/-- The operators, those that bind loosest first. -/
def ladder : List (List Operator) :=
  [[.logic .or], [.logic .and], [.compare .eq, .compare .ne],
    [.compare .lt, .compare .le, .compare .gt, .compare .ge], [.arith .add, .arith .sub],
    [.arith .mul, .arith .div, .arith .rem]]

/-- The place of an operator on the ladder. -/
def precedence (op : Operator) : Nat := ladder.findIdx (op ∈ ·)

theorem precedence_eq_level (op : Operator) : op.precedence = op.level := by
  cases op with
  | arith op => cases op <;> rfl
  | compare op => cases op <;> rfl
  | logic op => cases op <;> rfl

theorem ofPunct?_punct (op : Operator) : ofPunct? op.punct = some op := by
  cases op with
  | arith op => cases op <;> rfl
  | compare op => cases op <;> rfl
  | logic op => cases op <;> rfl

/-- An operator as the grammar has it. -/
theorem exists_layer (op : Operator) :
    ∃ l : Layer, (op.punct, op) ∈ l.operators ∧ l.rank = op.precedence := by
  obtain ⟨l, hmem⟩ := Layer.exists_mem op.ofPunct?_punct
  exact ⟨l, hmem, by rw [precedence_eq_level, (Layer.spec_of_mem hmem).2]⟩

end Operator

/-- The tokens, between parentheses if the condition holds. -/
def parenthesizedIf (c : Prop) [Decidable c] (tokens : List Token) : List Token :=
  if c then .punct .lparen :: (tokens ++ [.punct .rparen]) else tokens

namespace Expr

/-- How tightly an expression holds together: as its operator binds, or tighter than any. -/
def precedence : Expr → Nat
  | .int _ | .float _ | .var _ => Operator.ladder.length
  | .binary op _ _ => op.precedence

/-- Operators associate to the left, so an equal one may stand bare on the left only. -/
def print : Expr → List Token
  | .int n => [.int n]
  | .float x => [.float x]
  | .var name => [.ident name]
  | .binary op lhs rhs =>
    parenthesizedIf (lhs.precedence < op.precedence) lhs.print ++
      .punct op.punct :: parenthesizedIf (rhs.precedence ≤ op.precedence) rhs.print

/-- The layer derives what the expression is printed as. -/
def Derived (l : Layer) (tokens : List Token) (e : Expr) : Prop :=
  ∃ t : ExprTree l, t.tokens = tokens ∧ t.value = e

variable {l : Layer} {e : Expr} {tokens : List Token}

theorem Derived.looser {m : Layer} (h : Derived l tokens e) (hm : m.rank ≤ l.rank) :
    Derived m tokens e := by
  obtain ⟨t, rfl, rfl⟩ := h
  exact t.exists_looser hm

theorem Derived.paren (h : Derived .expression tokens e) :
    Derived .factor (.punct .lparen :: (tokens ++ [.punct .rparen])) e := by
  obtain ⟨t, rfl, rfl⟩ := h
  exact ⟨.paren t, rfl, rfl⟩

/-- An operand may stand bare if it is derived by the layer, and in parentheses anyway. -/
theorem Derived.parenthesizedIf {c : Prop} [Decidable c] (hl : l.rank ≤ Layer.factor.rank)
    (hbare : ¬ c → Derived l tokens e) (hparen : Derived .expression tokens e) :
    Derived l (parenthesizedIf c tokens) e := by
  rw [TinyC.parenthesizedIf]
  split
  · exact hparen.paren.looser hl
  · exact hbare ‹_›

theorem derived_print (e : Expr) {l : Layer} (h : l.rank ≤ e.precedence) :
    Derived l e.print e := by
  induction e generalizing l with
  | int n =>
    have hprimary : Derived .primary [.int n] (.int n) := ⟨.int n, rfl, rfl⟩
    exact hprimary.looser (Nat.le_succ_of_le h)
  | float x =>
    have hprimary : Derived .primary [.float x] (.float x) := ⟨.float x, rfl, rfl⟩
    exact hprimary.looser (Nat.le_succ_of_le h)
  | var name =>
    have hprimary : Derived .primary [.ident name] (.var name) := ⟨.ident name, rfl, rfl⟩
    exact hprimary.looser (Nat.le_succ_of_le h)
  | binary op lhs rhs ihl ihr =>
    obtain ⟨k, hmem, hrank⟩ := op.exists_layer
    obtain ⟨m, hm⟩ := Layer.exists_operand hmem
    have hm_rank := Layer.rank_operand hm
    have hk := Layer.rank_lt_of_mem hmem
    -- The left operand may be of the operator's own layer, the right one must be tighter.
    have hlhs : Derived k (TinyC.parenthesizedIf (lhs.precedence < op.precedence) lhs.print) lhs :=
      .parenthesizedIf hk.le (fun hc => ihl (by omega)) (ihl (Nat.zero_le _))
    have hrhs : Derived m (TinyC.parenthesizedIf (rhs.precedence ≤ op.precedence) rhs.print) rhs :=
      .parenthesizedIf (by omega) (fun hc => ihr (by omega)) (ihr (Nat.zero_le _))
    obtain ⟨tl, htl, rfl⟩ := hlhs
    obtain ⟨tr, htr, rfl⟩ := hrhs
    have hbinary : Derived k (Expr.binary op tl.value tr.value).print
        (.binary op tl.value tr.value) :=
      ⟨.binary op.punct op hmem hm tl tr, by rw [ExprTree.tokens, htl, htr, print], rfl⟩
    exact hbinary.looser (hrank ▸ h)

theorem exists_tree (e : Expr) : ∃ t : ExpressionTree, t.tokens = e.print ∧ t.value = e :=
  e.derived_print (Nat.zero_le _)

end Expr

/-! ## Statements -/

namespace Decl

def print (d : Decl) : List Token :=
  typeToken d.ty :: .ident d.name ::
    ((match d.initial with
      | none => []
      | some e => .punct .assign :: e.print) ++ [.punct .semicolon])

theorem exists_tree (d : Decl) : ∃ t : DeclTree, t.tokens = d.print ∧ t.value = d := by
  obtain ⟨ty, name, initial⟩ := d
  cases initial with
  | none => exact ⟨⟨ty, name, none⟩, rfl, rfl⟩
  | some e =>
    obtain ⟨t, ht, rfl⟩ := e.exists_tree
    refine ⟨⟨ty, name, some t⟩, ?_, rfl⟩
    rw [DeclTree.tokens, DeclTree.initialTokens, ht, print]

end Decl

namespace Assign

def print (a : Assign) : List Token := .ident a.name :: .punct .assign :: a.value.print

theorem exists_tree (a : Assign) : ∃ t : AssignTree, t.tokens = a.print ∧ t.value = a := by
  obtain ⟨name, value⟩ := a
  obtain ⟨t, ht, rfl⟩ := value.exists_tree
  exact ⟨⟨name, t⟩, by rw [AssignTree.tokens, ht, print], rfl⟩

end Assign

/-- The tokens between braces. -/
def braced (tokens : List Token) : List Token :=
  .punct .lbrace :: (tokens ++ [.punct .rbrace])

/-- The tokens between parentheses, behind a keyword. -/
def headed (word : Keyword) (tokens : List Token) : List Token :=
  .keyword word :: .punct .lparen :: (tokens ++ [.punct .rparen])

namespace Stmt

mutual

def print : Stmt → List Token
  | .decl d => d.print
  | .assign a => a.print ++ [.punct .semicolon]
  | .ifThen cond body => headed .if_ cond.print ++ braced (printAll body)
  | .ifElse cond thenBody elseBody =>
    headed .if_ cond.print ++
      (braced (printAll thenBody) ++ .keyword .else_ :: braced (printAll elseBody))
  | .while_ cond body => headed .while_ cond.print ++ braced (printAll body)
  | .for_ init cond step body =>
    headed .for_ (init.print ++ (cond.print ++ .punct .semicolon :: step.print)) ++
      braced (printAll body)
  | .block body => braced (printAll body)
  | .empty => [.punct .semicolon]

def printAll : List Stmt → List Token
  | [] => []
  | s :: body => s.print ++ printAll body

end

/-- A body in braces is a closed statement and stands for its statements. -/
theorem exists_braced {body : List Stmt} {tokens : List Token}
    (h : ∃ t : StmtTree .list, t.tokens = tokens ∧ t.value = body) :
    ∃ t : StmtTree .closed, t.tokens = braced tokens ∧ t.value.toBody = body := by
  obtain ⟨t, rfl, rfl⟩ := h
  exact ⟨.ofSimple (.block t), rfl, rfl⟩

mutual

theorem exists_tree : (s : Stmt) → ∃ t : StmtTree .statement, t.tokens = s.print ∧ t.value = s
  | .decl d => by
    obtain ⟨t, ht, rfl⟩ := d.exists_tree
    exact ⟨.ofClosed (.ofSimple (.decl t)), by rw [print, ← ht]; rfl, rfl⟩
  | .assign a => by
    obtain ⟨t, ht, rfl⟩ := a.exists_tree
    exact ⟨.ofClosed (.ofSimple (.assign t)), by rw [print, ← ht]; rfl, rfl⟩
  | .ifThen cond body => by
    obtain ⟨c, hc, rfl⟩ := cond.exists_tree
    obtain ⟨b, hb, rfl⟩ := exists_braced (exists_trees body)
    exact ⟨.ofOpen (.openIf c (.ofClosed b)), by rw [print, ← hc, ← hb]; rfl, rfl⟩
  | .ifElse cond thenBody elseBody => by
    obtain ⟨c, hc, rfl⟩ := cond.exists_tree
    obtain ⟨b, hb, rfl⟩ := exists_braced (exists_trees thenBody)
    obtain ⟨b', hb', rfl⟩ := exists_braced (exists_trees elseBody)
    exact ⟨.ofClosed (.closedIfElse c b b'), by rw [print, ← hc, ← hb, ← hb']; rfl, rfl⟩
  | .while_ cond body => by
    obtain ⟨c, hc, rfl⟩ := cond.exists_tree
    obtain ⟨b, hb, rfl⟩ := exists_braced (exists_trees body)
    exact ⟨.ofClosed (.closedWhile c b), by rw [print, ← hc, ← hb]; rfl, rfl⟩
  | .for_ init cond step body => by
    obtain ⟨i, hi, rfl⟩ := init.exists_tree
    obtain ⟨c, hc, rfl⟩ := cond.exists_tree
    obtain ⟨a, ha, rfl⟩ := step.exists_tree
    obtain ⟨b, hb, rfl⟩ := exists_braced (exists_trees body)
    refine ⟨.ofClosed (.closedFor ⟨i, c, a⟩ b), ?_, rfl⟩
    rw [print, ← hi, ← hc, ← ha, ← hb]
    simp [StmtTree.tokens, ForHead.tokens, headed]
  | .block body => by
    obtain ⟨t, ht, rfl⟩ := exists_trees body
    exact ⟨.ofClosed (.ofSimple (.block t)), by rw [print, ← ht]; rfl, rfl⟩
  | .empty => ⟨.ofClosed (.ofSimple .empty), by rw [print]; rfl, rfl⟩

theorem exists_trees : (body : List Stmt) →
    ∃ t : StmtTree .list, t.tokens = printAll body ∧ t.value = body
  | [] => ⟨.nil, by rw [printAll]; rfl, rfl⟩
  | s :: body => by
    obtain ⟨t, ht, hs⟩ := exists_tree s
    obtain ⟨t', ht', hbody⟩ := exists_trees body
    exact ⟨.cons t t', by rw [StmtTree.tokens, ht, ht', printAll],
      by rw [StmtTree.value, hs, hbody]⟩

end

end Stmt

/-! ## Programs -/

namespace Program

def print (p : Program) : List Token :=
  .keyword .int :: .ident p.name :: .punct .lparen :: .punct .rparen ::
    braced (Stmt.printAll p.items)

theorem splitDecls_map_append (decls : List Decl) {stmts : List Stmt}
    (h : ∀ d, stmts.head? ≠ some (.decl d)) :
    splitDecls (decls.map .decl ++ stmts) = (decls, stmts) := by
  induction decls with
  | nil =>
    cases stmts with
    | nil => rfl
    | cons s stmts =>
      cases s with
      | decl d => exact absurd rfl (h d)
      | _ => rfl
  | cons d decls ih => simp [splitDecls, ih]

/-- The split of the body is found again, unless a declaration stands behind it. -/
theorem ofItems_items {p : Program} (h : ∀ d, p.statements.head? ≠ some (.decl d)) :
    ofItems p.name p.items = p := by
  rw [ofItems, items, splitDecls_map_append _ h]

theorem exists_tree {p : Program} (h : ∀ d, p.statements.head? ≠ some (.decl d)) :
    ∃ t : ProgramTree, t.tokens = p.print ∧ t.value = p := by
  obtain ⟨t, ht, hvalue⟩ := Stmt.exists_trees p.items
  refine ⟨⟨p.name, t⟩, by rw [ProgramTree.tokens, ht]; rfl, ?_⟩
  rw [ProgramTree.value, hvalue, ofItems_items h]

end Program

/-- Parsing undoes printing, wherever in a source the printed tokens stand. A program must have all
its leading declarations in front. -/
theorem parse_print (source : List Char) (tokens : List (Spanned Token)) :
    (∀ p : Program, (∀ d, p.statements.head? ≠ some (.decl d)) →
      tokens.map (·.value) = p.print → programMachine.parse source (tokens.map .ok) = .ok p) ∧
    ∀ e : Expr, tokens.map (·.value) = e.print →
      expressionMachine.parse source (tokens.map .ok) = .ok e := by
  constructor
  · intro p hp htokens
    refine Machine.parse_eq_ok_iff.mpr (programMachine_accepts_iff.mpr ?_)
    rw [htokens]
    exact Program.exists_tree hp
  · intro e htokens
    refine Machine.parse_eq_ok_iff.mpr (expressionMachine_accepts_iff.mpr ?_)
    rw [htokens]
    exact e.exists_tree

/-- `int main() { int a; if (a - (a - 1) < 2) { if (a) { } } else { ; } int b; }` -/
def Program.nested : Program where
  name := "main"
  declarations := [⟨.int, "a", none⟩]
  statements :=
    [.ifElse
      (.binary (.compare .lt)
        (.binary (.arith .sub) (.var "a") (.binary (.arith .sub) (.var "a") (.int 1))) (.int 2))
      [.ifThen (.var "a") []] [.empty],
    .decl ⟨.int, "b", none⟩]

/-- The inner conditional keeps its braces, so the `else` stays with the outer one. -/
theorem nested_parse_print :
    (∀ d, Program.nested.statements.head? ≠ some (.decl d)) ∧
      programMachine.parse [] ((Program.nested.print.map fun t => ⟨0, t, 0⟩).map .ok) =
        .ok Program.nested := by
  have hhead : ∀ d, Program.nested.statements.head? ≠ some (.decl d) := by
    simp [Program.nested]
  refine ⟨hhead, (parse_print [] _).1 _ hhead ?_⟩
  rw [List.map_map]
  exact List.map_id _

end TinyC
