import TinyC.Compile

/-!
# Blocks and empty statements

A block puts statements together and an empty statement stands for nothing, so neither leaves a
trace in what a program is lowered to. Nor does it matter which of the leading declarations of a
program are kept apart from its statements.

Main statement: a program is lowered as it is without its blocks and empty statements.
-/

namespace TinyC

/-! ## Flat programs -/

namespace Stmt

mutual

/-- The statements that are left of a statement when every block in it, at any depth, is replaced
by what it holds and every empty statement is dropped. -/
def flat : Stmt → List Stmt
  | .decl d => [.decl d]
  | .assign a => [.assign a]
  | .ifThen cond body => [.ifThen cond (flatAll body)]
  | .ifElse cond thenBody elseBody => [.ifElse cond (flatAll thenBody) (flatAll elseBody)]
  | .while_ cond body => [.while_ cond (flatAll body)]
  | .for_ init cond step body => [.for_ init cond step (flatAll body)]
  | .block body => flatAll body
  | .empty => []

@[inherit_doc flat]
def flatAll : List Stmt → List Stmt
  | [] => []
  | s :: body => s.flat ++ flatAll body

end

mutual

/-- There is no block and no empty statement, at any depth. -/
def isFlat : Stmt → Bool
  | .decl _ | .assign _ => true
  | .ifThen _ body | .while_ _ body | .for_ _ _ _ body => isFlatAll body
  | .ifElse _ thenBody elseBody => isFlatAll thenBody && isFlatAll elseBody
  | .block _ | .empty => false

@[inherit_doc isFlat]
def isFlatAll : List Stmt → Bool
  | [] => true
  | s :: body => s.isFlat && isFlatAll body

end

def isDecl : Stmt → Bool
  | .decl _ => true
  | _ => false

end Stmt

namespace Program

/-- The program without blocks and empty statements. Declarations that now lead its body are kept
apart as well. -/
def flat (p : Program) : Program := .ofItems p.name (Stmt.flatAll p.items)

/-- There is no block and no empty statement, and every leading declaration is kept apart. -/
def isFlat (p : Program) : Bool :=
  Stmt.isFlatAll p.statements && !p.statements.head?.any Stmt.isDecl

end Program

namespace Stmt

theorem isFlatAll_append (body body' : List Stmt) :
    isFlatAll (body ++ body') = (isFlatAll body && isFlatAll body') := by
  induction body with
  | nil => rfl
  | cons s body ih => simp only [List.cons_append, isFlatAll, ih, Bool.and_assoc]

mutual

theorem isFlatAll_flat : ∀ s : Stmt, isFlatAll s.flat = true
  | .decl d => rfl
  | .assign a => rfl
  | .ifThen cond body | .while_ cond body | .for_ init cond step body => by
    simp [flat, isFlatAll, isFlat, isFlatAll_flatAll body]
  | .ifElse cond thenBody elseBody => by
    simp [flat, isFlatAll, isFlat, isFlatAll_flatAll thenBody, isFlatAll_flatAll elseBody]
  | .block body => by
    rw [flat, isFlatAll_flatAll body]
  | .empty => rfl

theorem isFlatAll_flatAll : ∀ body : List Stmt, isFlatAll (flatAll body) = true
  | [] => rfl
  | s :: body => by
    rw [flatAll, isFlatAll_append, isFlatAll_flat s, isFlatAll_flatAll body, Bool.true_and]

end

end Stmt

namespace Program

theorem head?_splitDecls (items : List Stmt) :
    (splitDecls items).2.head?.any Stmt.isDecl = false := by
  fun_induction splitDecls items with
  | case1 d rest decls stmts h ih => simpa only [h] using ih
  | case2 stmts hnot =>
    cases stmts with
    | nil => rfl
    | cons s stmts =>
      cases s with
      | decl d => exact absurd rfl (hnot d stmts)
      | _ => rfl

theorem isFlat_flat (p : Program) : p.flat.isFlat = true := by
  have hitems : (splitDecls (Stmt.flatAll p.items)).1.map Stmt.decl ++ p.flat.statements =
      Stmt.flatAll p.items := splitDecls_append _
  have hflat : Stmt.isFlatAll p.flat.statements = true := by
    have h := Stmt.isFlatAll_flatAll p.items
    rw [← hitems, Stmt.isFlatAll_append, Bool.and_eq_true] at h
    exact h.2
  have hhead : p.flat.statements.head?.any Stmt.isDecl = false := head?_splitDecls _
  rw [isFlat, hflat, hhead]
  rfl

end Program

/-! ## Lowering -/

theorem Stmt.lowerAll_singleton (s : Stmt) : lowerAll [s] = s.lower := by
  simp only [lowerAll]
  exact bind_pure s.lower

theorem Stmt.lowerAll_append (body body' : List Stmt) :
    lowerAll (body ++ body') = (do lowerAll body; lowerAll body') := by
  induction body with
  | nil => simp only [List.nil_append, lowerAll, pure_bind]
  | cons s body ih => simp only [List.cons_append, lowerAll, ih, bind_assoc]

theorem Stmt.lowerAll_map_decl (decls : List Decl) :
    lowerAll (decls.map .decl) = Decl.lowerAll decls := by
  induction decls with
  | nil => rfl
  | cons d decls ih => simp only [List.map_cons, lowerAll, Decl.lowerAll, lower, ih]

/-- The declarations in front are lowered as statements are. -/
theorem Program.lower_eq (p : Program) :
    p.lower = (do
      Ir.BuildM.moveTo (← Ir.BuildM.appendBlock "entry")
      Stmt.lowerAll p.items
      Ir.BuildM.ret (some (.int 0))) := by
  simp only [lower, items, Stmt.lowerAll_append, Stmt.lowerAll_map_decl, bind_assoc]

namespace Stmt

mutual

theorem lowerAll_flat : ∀ s : Stmt, lowerAll s.flat = s.lower
  | .decl d => lowerAll_singleton _
  | .assign a => lowerAll_singleton _
  | .ifThen cond body => by
    rw [flat, lowerAll_singleton, lower, lower, lowerAll_flatAll body]
  | .ifElse cond thenBody elseBody => by
    rw [flat, lowerAll_singleton, lower, lower, lowerAll_flatAll thenBody,
      lowerAll_flatAll elseBody]
  | .while_ cond body => by
    rw [flat, lowerAll_singleton, lower, lower, lowerAll_flatAll body]
  | .for_ init cond step body => by
    rw [flat, lowerAll_singleton, lower, lower, lowerAll_flatAll body]
  | .block body => by
    rw [flat, lower, lowerAll_flatAll body]
  | .empty => by
    rw [flat, lowerAll, lower]

theorem lowerAll_flatAll : ∀ body : List Stmt, lowerAll (flatAll body) = lowerAll body
  | [] => by rw [flatAll]
  | s :: body => by
    rw [flatAll, lowerAll_append, lowerAll, lowerAll_flat s, lowerAll_flatAll body]

end

end Stmt

namespace Program

/-- The two programs are lowered by the same steps, so they leave the same state, well or with an
error. -/
theorem lower_flat (p : Program) : p.flat.lower = p.lower := by
  rw [lower_eq, lower_eq, flat, items_ofItems, Stmt.lowerAll_flatAll]

/-- Blocks, empty statements and the place of leading declarations do not show in the module, nor
in the error if there is one. -/
theorem toModule_flat (p : Program) : p.flat.isFlat = true ∧ p.flat.toModule = p.toModule := by
  have hname : p.flat.name = p.name := rfl
  refine ⟨p.isFlat_flat, ?_⟩
  unfold toModule
  rw [lower_flat, hname]

end Program

end TinyC
