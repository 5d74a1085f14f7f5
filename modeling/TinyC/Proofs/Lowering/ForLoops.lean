import TinyC.Proofs.Lowering.Lockstep
import TinyC.Proofs.Program.Declared

/-!
# Loops with a counter

A `for` loop declares its counter in front of the loop and steps it at the end of the body, so it
can be written as a `while` loop. When all loops of a program are written that way at once, every
label of a loop may change, and with it the number of every later one.

Main statement: the program is lowered to the same blocks, up to the labels of loops, or it fails
with the same error.
-/

namespace TinyC

open Ir LowerM

/-! ## While loops only -/

namespace Stmt

mutual

/-- The statements that a statement stands for when every `for` loop in it, at any depth, is
replaced by the declaration of its counter and a `while` loop. -/
def whileForm : Stmt → List Stmt
  | .decl d => [.decl d]
  | .assign a => [.assign a]
  | .ifThen cond body => [.ifThen cond (whileFormAll body)]
  | .ifElse cond thenBody elseBody => [.ifElse cond (whileFormAll thenBody) (whileFormAll elseBody)]
  | .while_ cond body => [.while_ cond (whileFormAll body)]
  | .for_ init cond step body => [.decl init, .while_ cond (whileFormAll body ++ [.assign step])]
  | .block body => [.block (whileFormAll body)]
  | .empty => [.empty]

@[inherit_doc whileForm]
def whileFormAll : List Stmt → List Stmt
  | [] => []
  | s :: body => s.whileForm ++ whileFormAll body

end

mutual

/-- There is no `for` loop, at any depth. -/
def isForFree : Stmt → Bool
  | .decl _ | .assign _ | .empty => true
  | .ifThen _ body | .while_ _ body | .block body => isForFreeAll body
  | .ifElse _ thenBody elseBody => isForFreeAll thenBody && isForFreeAll elseBody
  | .for_ .. => false

@[inherit_doc isForFree]
def isForFreeAll : List Stmt → Bool
  | [] => true
  | s :: body => s.isForFree && isForFreeAll body

end

theorem isForFreeAll_append (body body' : List Stmt) :
    isForFreeAll (body ++ body') = (isForFreeAll body && isForFreeAll body') := by
  induction body with
  | nil => rfl
  | cons s body ih => simp only [List.cons_append, isForFreeAll, ih, Bool.and_assoc]

mutual

theorem isForFreeAll_whileForm : ∀ s : Stmt, isForFreeAll s.whileForm = true
  | .decl d => rfl
  | .assign a => rfl
  | .ifThen cond body | .while_ cond body | .block body => by
    simp [whileForm, isForFreeAll, isForFree, isForFreeAll_whileFormAll body]
  | .ifElse cond thenBody elseBody => by
    simp [whileForm, isForFreeAll, isForFree, isForFreeAll_whileFormAll thenBody,
      isForFreeAll_whileFormAll elseBody]
  | .for_ init cond step body => by
    simp [whileForm, isForFreeAll, isForFree, isForFreeAll_append, isForFreeAll_whileFormAll body]
  | .empty => rfl

theorem isForFreeAll_whileFormAll : ∀ body : List Stmt, isForFreeAll (whileFormAll body) = true
  | [] => rfl
  | s :: body => by
    rw [whileFormAll, isForFreeAll_append, isForFreeAll_whileForm s, isForFreeAll_whileFormAll body,
      Bool.true_and]

end

/-! The same names are mentioned in the same order. -/

mutual

theorem mentionsAll_whileForm : ∀ s : Stmt, mentionsAll s.whileForm = s.mentions
  | .decl d | .assign a | .empty => by
    simp [whileForm, mentionsAll, mentions]
  | .ifThen cond body | .while_ cond body | .block body => by
    simp [whileForm, mentionsAll, mentions, mentionsAll_whileFormAll body]
  | .ifElse cond thenBody elseBody => by
    simp [whileForm, mentionsAll, mentions, mentionsAll_whileFormAll thenBody,
      mentionsAll_whileFormAll elseBody]
  | .for_ init cond step body => by
    simp [whileForm, mentionsAll, mentions, mentionsAll_append, mentionsAll_whileFormAll body]

theorem mentionsAll_whileFormAll : ∀ body : List Stmt,
    mentionsAll (whileFormAll body) = mentionsAll body
  | [] => rfl
  | s :: body => by
    rw [whileFormAll, mentionsAll_append, mentionsAll_whileForm s, mentionsAll_whileFormAll body,
      mentionsAll]

end

theorem whileFormAll_append (body body' : List Stmt) :
    whileFormAll (body ++ body') = whileFormAll body ++ whileFormAll body' := by
  induction body with
  | nil => rfl
  | cons s body ih => simp only [List.cons_append, whileFormAll, ih, List.append_assoc]

theorem whileFormAll_map_decl (decls : List Decl) :
    whileFormAll (decls.map .decl) = decls.map .decl := by
  induction decls with
  | nil => rfl
  | cons d decls ih => simp only [List.map_cons, whileFormAll, whileForm, ih, List.singleton_append]

end Stmt

namespace Program

/-- The program with `while` loops only. -/
def whileForm (p : Program) : Program :=
  ⟨p.name, p.declarations, Stmt.whileFormAll p.statements⟩

theorem items_whileForm (p : Program) : p.whileForm.items = Stmt.whileFormAll p.items := by
  rw [items, items, Stmt.whileFormAll_append, Stmt.whileFormAll_map_decl]
  rfl

theorem check_whileForm (p : Program) : p.whileForm.check = p.check := by
  rw [check, check, mentions_eq, mentions_eq, items_whileForm, Stmt.mentionsAll_whileFormAll]

end Program

/-! ## Labels of loops -/

/-- The labels are equal, or the first one is of a loop and the second one is of the same part of a
`while` loop. -/
inductive Ir.Relabelled : String → String → Prop
  | same (l : String) : Relabelled l l
  | loop {kind part : String} (n n' : Option Nat) : kind ∈ loopKinds → part ∈ loopParts →
    Relabelled (nextName (kind ++ part) n) (nextName ("while" ++ part) n')

/-- Variables keep their names, and the labels of loops are not counted. -/
def Translation.loops : Translation where
  scope := {x | Undotted x}
  name := id
  slot := id
  label := Relabelled
  counted := {base | ∀ kind ∈ loopKinds, ∀ part ∈ loopParts, base ≠ kind ++ part}
  undotted _ h := ⟨h, h⟩
  injective := Set.injOn_id _
  slot_eq _ _ := rfl
  label_refl := .same
  arms := by
    rintro base (rfl | rfl | rfl) <;> decide +kernel

theorem Translation.asks_loops {kind part : String} (hkind : kind ∈ loopKinds)
    (hpart : part ∈ loopParts) : loops.Asks (kind ++ part) ("while" ++ part) where
  isLabel := .loop hkind hpart
  isLabel' := .loop (by decide) hpart
  related := .inr ⟨fun h => h kind hkind part hpart rfl,
    fun h => h "while" (by decide) part hpart rfl, fun n n' => .loop n n' hkind hpart⟩

/-! ## Lowering -/

theorem Expr.rename_id (e : Expr) : e.rename id = e := by
  induction e with
  | int n => rfl
  | float x => rfl
  | var name => rfl
  | binary op lhs rhs ihl ihr => rw [rename, ihl, ihr]

theorem Decl.rename_id (d : Decl) : d.rename id = d := by
  obtain ⟨ty, name, initial⟩ := d
  cases initial with
  | none => rfl
  | some e => simp [rename, Expr.rename_id]

theorem Assign.rename_id (a : Assign) : a.rename id = a := by
  simp [rename, Expr.rename_id]

namespace Translation

/-! What mentions no loop is lowered as it is. -/

theorem Paired.lowerTruth {e : Expr} (h : ∀ m ∈ e.mentions, m.name ∈ loops.scope) :
    loops.Paired Eq e.lowerTruth e.lowerTruth := by
  simpa only [loops, Expr.rename_id] using e.lowerTruth_paired h

theorem Paired.decl {d : Decl} (h : ∀ m ∈ d.mentions, m.name ∈ loops.scope) :
    loops.Paired Eq d.lower d.lower := by
  simpa only [loops, Decl.rename_id] using d.lower_paired h

theorem Paired.assign {a : Assign} (h : ∀ m ∈ a.mentions, m.name ∈ loops.scope) :
    loops.Paired Eq a.lower a.lower := by
  simpa only [loops, Assign.rename_id] using a.lower_paired h

end Translation

namespace Stmt

open Translation

theorem lowerAll_whileForm_for (init : Decl) (cond : Expr) (step : Assign) (body : List Stmt) :
    lowerAll (whileForm (.for_ init cond step body)) = (do
      init.lower
      loop "while" cond do
        lowerAll (whileFormAll body)
        step.lower) := by
  rw [whileForm, lowerAll, lowerAll_singleton, lower, lower, lowerAll_append, lowerAll_singleton,
    lower]

mutual

theorem whileForm_paired : ∀ {s : Stmt}, (∀ m ∈ s.mentions, m.name ∈ loops.scope) →
    loops.Paired Eq s.lower (lowerAll s.whileForm)
  | .decl d, h => by
    rw [whileForm, lowerAll_singleton]
    exact .decl h
  | .assign a, h => by
    rw [whileForm, lowerAll_singleton]
    exact .assign h
  | .ifThen cond body, h => by
    rw [mentions, List.forall_mem_append] at h
    rw [whileForm, lowerAll_singleton, lower, lower]
    exact (Paired.lowerTruth h.1).andThen fun v => .ifThen v (whileFormAll_paired h.2)
  | .ifElse cond thenBody elseBody, h => by
    rw [mentions, List.forall_mem_append, List.forall_mem_append] at h
    rw [whileForm, lowerAll_singleton, lower, lower]
    exact (Paired.lowerTruth h.1).andThen fun v =>
      .ifElse v (whileFormAll_paired h.2.1) (whileFormAll_paired h.2.2)
  | .while_ cond body, h => by
    rw [mentions, List.forall_mem_append] at h
    rw [whileForm, lowerAll_singleton, lower, lower]
    exact .loop (fun _ => asks_loops (by decide)) (.lowerTruth h.1) (whileFormAll_paired h.2)
  | .for_ init cond step body, h => by
    rw [mentions, List.forall_mem_append, List.forall_mem_append, List.forall_mem_append] at h
    obtain ⟨hinit, hcond, hbody, hstep⟩ := h
    rw [lowerAll_whileForm_for, lower]
    refine (Paired.decl hinit).andThen fun _ => ?_
    exact .loop (fun _ => asks_loops (by decide)) (.lowerTruth hcond)
      ((whileFormAll_paired hbody).andThen fun _ => .assign hstep)
  | .block body, h => by
    rw [whileForm, lowerAll_singleton, lower, lower]
    exact whileFormAll_paired h
  | .empty, h => by
    rw [whileForm, lowerAll_singleton]
    exact .pure rfl

theorem whileFormAll_paired : ∀ {body : List Stmt},
    (∀ m ∈ mentionsAll body, m.name ∈ loops.scope) →
      loops.Paired Eq (lowerAll body) (lowerAll (whileFormAll body))
  | [], _ => .pure rfl
  | s :: body, h => by
    rw [mentionsAll, List.forall_mem_append] at h
    rw [whileFormAll, lowerAll, lowerAll_append]
    exact (whileForm_paired h.1).andThen fun _ => whileFormAll_paired h.2

end

end Stmt

/-- The functions have the same blocks in the same order, up to the labels of loops. Every label is
that of one block, so the place of a target is that of the block it names. -/
structure Ir.Function.RelabelledTo (f f' : Function) : Prop where
  wellFormed : f.WellFormed ∧ f'.WellFormed
  name : f'.name = f.name
  ret : f'.ret = f.ret
  code : f'.unlabelled = f.unlabelled
  labels : List.Forall₂ Relabelled f.blockNames f'.blockNames

namespace Program

/-- `for` loops are `while` loops with a counter: writing all loops of a program that way changes
nothing but the labels of loops, and it keeps the error of a program that has one. -/
theorem toModule_whileForm (p : Program) (h : ∀ x ∈ p.identifiers, Undotted x) :
    Stmt.isForFreeAll p.whileForm.statements = true ∧
      ((∃ f f', p.toModule = .ok ⟨p.name, [f]⟩ ∧ p.whileForm.toModule = .ok ⟨p.name, [f']⟩ ∧
          f.RelabelledTo f') ∨
        ∃ e, p.toModule = .error e ∧ p.whileForm.toModule = .error e) := by
  refine ⟨Stmt.isForFreeAll_whileFormAll p.statements, ?_⟩
  have hcheck' := p.check_whileForm
  cases hcheck : p.check with
  | error e =>
    rw [hcheck] at hcheck'
    exact .inr ⟨_, toModule_of_check_error hcheck, toModule_of_check_error hcheck'⟩
  | ok Γ =>
    rw [hcheck] at hcheck'
    have hmentions : ∀ m ∈ Stmt.mentionsAll p.items, m.name ∈ Translation.loops.scope := by
      rw [← mentions_eq]
      exact fun m hm => h m.name (List.mem_map_of_mem hm)
    have hpaired := Stmt.whileFormAll_paired hmentions
    rw [← items_whileForm] at hpaired
    have hname : p.whileForm.name = p.name := rfl
    obtain ⟨f, f', hf, hf', hwf, hwf', halike⟩ := toModule_alike hname hpaired hcheck hcheck'
    exact .inl ⟨f, f', hf, hf', ⟨hwf, hwf'⟩, halike.name, halike.ret,
      halike.unlabelled_eq hwf.names hwf'.names, halike.labels⟩

theorem sample_whileForm : (∀ x ∈ sample.identifiers, Undotted x) ∧
    ∃ f f', sample.toModule = .ok ⟨sample.name, [f]⟩ ∧
      sample.whileForm.toModule = .ok ⟨sample.name, [f']⟩ ∧ f.RelabelledTo f' := by
  have h : ∀ x ∈ sample.identifiers, Undotted x := by decide +kernel
  refine ⟨h, (toModule_whileForm sample h).2.resolve_right ?_⟩
  rintro ⟨e, he, -⟩
  exact toModule_ne_error check_sample e he

end Program

end TinyC
