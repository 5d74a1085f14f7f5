import TinyC.Proofs.Parser.Statement
import TinyC.Proofs.Program.Scope
import TinyC.Proofs.Token.Words

/-!
# Declared names

The names that the scope of a program holds are declared in it, the names that are declared stand
in the tokens it is parsed from, and so they are words.
-/

namespace TinyC

open Grammar

/-! ## Scopes -/

theorem Scope.mem_of_allow {Γ Γ' : Scope} {m : Mention} (h : Γ.allow m = .ok Γ')
    {entry : String × Ty} (hentry : entry ∈ Γ') : entry ∈ Γ ∨ m = .declare entry.1 entry.2 := by
  cases m with
  | declare name ty =>
    simp only [allow] at h
    split at h
    · cases h
    · cases h
      rcases List.mem_cons.mp hentry with rfl | hentry
      · exact .inr rfl
      · exact .inl hentry
  | use name | assign name =>
    simp only [allow] at h
    split at h
    · cases h
      exact .inl hentry
    · cases h

theorem Scope.mem_of_allowAll {Γ Γ' : Scope} {mentions : List Mention}
    (h : Γ.allowAll mentions = .ok Γ') {entry : String × Ty} (hentry : entry ∈ Γ') :
    entry ∈ Γ ∨ .declare entry.1 entry.2 ∈ mentions := by
  induction mentions generalizing Γ with
  | nil =>
    cases h
    exact .inl hentry
  | cons m mentions ih =>
    rw [allowAll_cons] at h
    cases hm : Γ.allow m with
    | error e =>
      rw [hm] at h
      cases h
    | ok Γ₁ =>
      rw [hm] at h
      rcases ih h with hmem | hmem
      · rcases mem_of_allow hm hmem with hmem | rfl
        · exact .inl hmem
        · exact .inr List.mem_cons_self
      · exact .inr (List.mem_cons_of_mem _ hmem)

/-! ## Derivations -/

variable {name : String} {ty : Ty}

theorem Expr.declare_not_mem (e : Expr) : .declare name ty ∉ e.mentions := by
  induction e with
  | int n => nofun
  | float x => nofun
  | var x => simp [mentions]
  | binary op lhs rhs ihl ihr => simp [mentions, ihl, ihr]

theorem Stmt.mentionsAll_toBody (s : Stmt) : mentionsAll s.toBody = s.mentions := by
  cases s <;> simp [toBody, mentionsAll, mentions]

namespace Grammar

/-- The mentions in what a derivation means. -/
def Form.mentions : {k : Form} → k.Value → List Mention
  | .list, body => Stmt.mentionsAll body
  | .statement, s | .opened, s | .closed, s | .simple, s => Stmt.mentions s

theorem DeclTree.ident_mem {d : DeclTree} (h : .declare name ty ∈ d.value.mentions) :
    .ident name ∈ d.tokens := by
  rcases List.mem_cons.mp h with heq | h
  · cases heq
    simp [tokens, value]
  · obtain ⟨e, -, he⟩ := List.mem_flatMap.mp h
    exact absurd he e.declare_not_mem

theorem AssignTree.declare_not_mem (a : AssignTree) : .declare name ty ∉ a.value.mentions := by
  intro h
  rcases List.mem_cons.mp h with heq | h
  · cases heq
  · exact a.expr.value.declare_not_mem h

theorem ForHead.ident_mem {head : ForHead} (h : .declare name ty ∈ head.init.value.mentions) :
    .ident name ∈ head.tokens := by
  have := DeclTree.ident_mem h
  simp [tokens, this]

theorem StmtTree.ident_mem {k : Form} (t : StmtTree k)
    (h : .declare name ty ∈ Form.mentions t.value) : .ident name ∈ t.tokens := by
  induction t with
  | ofOpen s ih => exact ih h
  | ofClosed s ih => exact ih h
  | ofSimple s ih => exact ih h
  | openIf cond body ih | openWhile cond body ih | closedWhile cond body ih =>
    simp only [Form.mentions, value, Stmt.mentions, Stmt.mentionsAll_toBody, List.mem_append,
      Expr.declare_not_mem, false_or] at h
    exact List.mem_append_right _ (ih h)
  | openIfElse cond thenArm elseArm iht ihe | closedIfElse cond thenArm elseArm iht ihe =>
    simp only [Form.mentions, value, Stmt.mentions, Stmt.mentionsAll_toBody, List.mem_append,
      Expr.declare_not_mem, false_or] at h
    refine List.mem_append_right _ (List.mem_append.mpr (h.imp iht fun h => ?_))
    exact List.mem_cons_of_mem _ (ihe h)
  | openFor head body ih | closedFor head body ih =>
    simp only [Form.mentions, value, Stmt.mentions, Stmt.mentionsAll_toBody, List.mem_append,
      Expr.declare_not_mem, AssignTree.declare_not_mem, false_or, or_false] at h
    exact List.mem_append.mpr (h.imp ForHead.ident_mem ih)
  | assign a => exact absurd h a.declare_not_mem
  | decl d => exact DeclTree.ident_mem h
  | block body ih =>
    exact List.mem_cons_of_mem _ (List.mem_append_left _ (ih h))
  | empty => exact absurd h List.not_mem_nil
  | nil => exact absurd h List.not_mem_nil
  | cons s body ihs ihb =>
    simp only [Form.mentions, value, Stmt.mentionsAll, List.mem_append] at h
    exact List.mem_append.mpr (h.imp ihs ihb)

end Grammar

/-! ## Programs -/

theorem Stmt.mentionsAll_append (body body' : List Stmt) :
    mentionsAll (body ++ body') = mentionsAll body ++ mentionsAll body' := by
  induction body with
  | nil => rfl
  | cons s body ih => simp [mentionsAll, ih]

theorem Stmt.mentionsAll_map_decl (decls : List Decl) :
    mentionsAll (decls.map .decl) = decls.flatMap Decl.mentions := by
  induction decls with
  | nil => rfl
  | cons d decls ih => simp [mentionsAll, mentions, ih]

/-- Splitting off the leading declarations keeps the order of the mentions. -/
theorem Program.mentions_eq (p : Program) : p.mentions = Stmt.mentionsAll p.items := by
  rw [mentions, items, Stmt.mentionsAll_append, Stmt.mentionsAll_map_decl]

/-- A parsed program has a derivation, and all identifiers in it are words. -/
theorem exists_tree_of_parse {source : String} {parsed : Parsed} (h : parse source = .ok parsed) :
    ∃ t : ProgramTree, t.value = parsed.program ∧
      ∀ name, .ident name ∈ t.tokens → IsWord name := by
  obtain ⟨-, haccepts, -⟩ := parse_eq_ok_iff.mp h
  obtain ⟨t, htokens, hvalue⟩ := programMachine_accepts_iff.mp haccepts
  refine ⟨t, hvalue, fun name hname => ?_⟩
  rw [htokens] at hname
  obtain ⟨token, htoken, hident⟩ := List.mem_map.mp hname
  exact tokenize_isWord (Item.mem_of_token? htoken) hident

/-- The variables of a parsed program are words. -/
theorem parse_isWord {source : String} {parsed : Parsed} (h : parse source = .ok parsed)
    {Γ : Scope} (hcheck : parsed.program.check = .ok Γ) {entry : String × Ty} (hentry : entry ∈ Γ) :
    IsWord entry.1 := by
  obtain ⟨t, hvalue, hwords⟩ := exists_tree_of_parse h
  have hdeclared := (Scope.mem_of_allowAll hcheck hentry).resolve_left List.not_mem_nil
  have hident : .ident entry.1 ∈ t.body.tokens := by
    rw [← hvalue, Program.mentions_eq, ProgramTree.value, Program.items_ofItems] at hdeclared
    exact t.body.ident_mem hdeclared
  exact hwords _ (by simp [ProgramTree.tokens, hident])

/-- The name of a parsed program is a word. -/
theorem parse_isWord_name {source : String} {parsed : Parsed} (h : parse source = .ok parsed) :
    IsWord parsed.program.name := by
  obtain ⟨t, hvalue, hwords⟩ := exists_tree_of_parse h
  rw [← hvalue]
  exact hwords _ (by simp [ProgramTree.tokens, ProgramTree.value, Program.ofItems])

end TinyC
