import TinyC.Proofs.Lowering.Lockstep
import TinyC.Proofs.Program.Declared
import TinyC.Proofs.Token.RoundTrip

/-!
# Names of variables

Slots are named after variables, and blocks and slots are named from one table. No variable that
can be written down takes part in the numbering of labels, but for one called as the first block
is. So the names of variables show up in a function as those of slots and nowhere else.

Main statement: a program with renamed variables is lowered to the same module with renamed slots,
or it fails with the same fault of the renamed name.
-/

namespace TinyC

open Ir LowerM

/-! ## Renamings -/

/-- The name is a word, and not that of the first block. -/
structure IsVariable (name : String) : Prop where
  isWord : IsWord name
  ne_entry : name ≠ "entry"

namespace IsVariable

variable {name : String}

theorem undotted (h : IsVariable name) : Undotted name := by
  obtain ⟨c, cs, hname, hc, hcs⟩ := h.isWord
  rw [Undotted, hname, List.mem_cons, not_or]
  refine ⟨?_, fun hmem => ?_⟩
  · rintro rfl
    exact absurd hc (by decide)
  · exact absurd (hcs '.' hmem) (by decide)

/-- The slot of the variable has its name. -/
theorem slotName_eq (h : IsVariable name) : slotName name = name := by
  rw [slotName, taken, if_neg h.ne_entry, nextName]

end IsVariable

/-- Variables and slots are renamed, and labels are as they are. -/
def Translation.ofRenaming (r : String → String) (names : Set String)
    (hnames : ∀ x ∈ names, IsVariable x ∧ IsVariable (r x)) (hr : Set.InjOn r names) :
    Translation where
  scope := names
  name := r
  slot := r
  label := Eq
  counted := Set.univ
  undotted x hx := ⟨(hnames x hx).1.undotted, (hnames x hx).2.undotted⟩
  injective := hr
  slot_eq x hx := by rw [(hnames x hx).1.slotName_eq, (hnames x hx).2.slotName_eq]
  label_refl _ := rfl
  arms := Set.subset_univ _

theorem Translation.asks_loop {τ : Translation} (hτ : τ.counted = Set.univ) {kind part : String}
    (hkind : kind ∈ loopKinds) (hpart : part ∈ loopParts) :
    τ.Asks (kind ++ part) (kind ++ part) :=
  .same (.loop hkind hpart) (hτ ▸ Set.mem_univ _)

/-! ## Statements -/

namespace Stmt

variable {τ : Translation}

mutual

theorem lower_paired (hτ : τ.counted = Set.univ) : ∀ {s : Stmt},
    (∀ m ∈ s.mentions, m.name ∈ τ.scope) → τ.Paired Eq s.lower (s.rename τ.name).lower
  | .decl d, h => Decl.lower_paired h
  | .assign a, h => Assign.lower_paired h
  | .ifThen cond body, h => by
    rw [mentions, List.forall_mem_append] at h
    rw [rename, lower, lower]
    exact (Expr.lowerTruth_paired h.1).andThen fun v => .ifThen v (lowerAll_paired hτ h.2)
  | .ifElse cond thenBody elseBody, h => by
    rw [mentions, List.forall_mem_append, List.forall_mem_append] at h
    rw [rename, lower, lower]
    exact (Expr.lowerTruth_paired h.1).andThen fun v =>
      .ifElse v (lowerAll_paired hτ h.2.1) (lowerAll_paired hτ h.2.2)
  | .while_ cond body, h => by
    rw [mentions, List.forall_mem_append] at h
    rw [rename, lower, lower]
    exact .loop (fun _ => Translation.asks_loop hτ (by decide)) (Expr.lowerTruth_paired h.1)
      (lowerAll_paired hτ h.2)
  | .for_ init cond step body, h => by
    rw [mentions, List.forall_mem_append, List.forall_mem_append, List.forall_mem_append] at h
    obtain ⟨hinit, hcond, hbody, hstep⟩ := h
    rw [rename, lower, lower]
    refine (Decl.lower_paired hinit).andThen fun _ => ?_
    exact .loop (fun _ => Translation.asks_loop hτ (by decide)) (Expr.lowerTruth_paired hcond)
      ((lowerAll_paired hτ hbody).andThen fun _ => Assign.lower_paired hstep)
  | .block body, h => by
    rw [rename, lower, lower]
    exact lowerAll_paired hτ h
  | .empty, _ => .pure rfl

theorem lowerAll_paired (hτ : τ.counted = Set.univ) : ∀ {body : List Stmt},
    (∀ m ∈ mentionsAll body, m.name ∈ τ.scope) →
      τ.Paired Eq (lowerAll body) (lowerAll (renameAll τ.name body))
  | [], _ => .pure rfl
  | s :: body, h => by
    rw [mentionsAll, List.forall_mem_append] at h
    rw [renameAll, lowerAll, lowerAll]
    exact (lower_paired hτ h.1).andThen fun _ => lowerAll_paired hτ h.2

end

theorem renameAll_append (r : String → String) (body body' : List Stmt) :
    renameAll r (body ++ body') = renameAll r body ++ renameAll r body' := by
  induction body with
  | nil => rfl
  | cons s body ih => simp only [List.cons_append, renameAll, ih]

theorem renameAll_map_decl (r : String → String) (decls : List Decl) :
    renameAll r (decls.map .decl) = (decls.map (Decl.rename r)).map .decl := by
  induction decls with
  | nil => rfl
  | cons d decls ih => simp only [List.map_cons, renameAll, rename, ih]

end Stmt

/-! ## Programs -/

namespace Program

theorem items_rename (p : Program) (r : String → String) :
    (p.rename r).items = Stmt.renameAll r p.items := by
  rw [items, items, Stmt.renameAll_append, Stmt.renameAll_map_decl]
  rfl

/-- Renaming the variables of a program renames the slots of its module and changes nothing else,
and a program that fails does so with the same fault of the renamed name. -/
theorem toModule_rename (p : Program) (r : String → String)
    (hp : ∀ x ∈ p.identifiers, IsVariable x) (hr : ∀ x ∈ p.identifiers, IsVariable (r x))
    (hinj : Set.InjOn r {x | x ∈ p.identifiers}) :
    (∃ m, p.toModule = .ok m ∧ (p.rename r).toModule = .ok (m.renameSlots r)) ∨
      ∃ e e', p.toModule = .error (.semantic e) ∧
        (p.rename r).toModule = .error (.semantic e') ∧ e.Renamed r e' := by
  have hchecks := check_rename hinj
  generalize hcheck : p.check = check at hchecks
  generalize hcheck' : (p.rename r).check = check' at hchecks
  cases hchecks with
  | error he =>
    exact .inr ⟨_, _, toModule_of_check_error hcheck, toModule_of_check_error hcheck', he⟩
  | ok Γ =>
    let τ : Translation :=
      .ofRenaming r {x | x ∈ p.identifiers} (fun x hx => ⟨hp x hx, hr x hx⟩) hinj
    have hmentions : ∀ m ∈ Stmt.mentionsAll p.items, m.name ∈ τ.scope := by
      rw [← mentions_eq]
      exact fun m hm => List.mem_map_of_mem hm
    have hpaired := Stmt.lowerAll_paired (τ := τ) rfl hmentions
    have hitems : Stmt.renameAll τ.name p.items = (p.rename r).items := (p.items_rename r).symm
    rw [hitems] at hpaired
    have hname : (p.rename r).name = p.name := rfl
    obtain ⟨f, f', hf, hf', -, -, halike⟩ := toModule_alike hname hpaired hcheck hcheck'
    have heq : f' = f.renameSlots r := halike.eq_renameSlots
    refine .inl ⟨_, hf, ?_⟩
    rw [hf', heq]
    rfl

theorem sample_rename : (∀ x ∈ sample.identifiers, IsVariable x) ∧
    (∀ x ∈ sample.identifiers, IsVariable ("v" ++ x)) ∧
    ∃ m, sample.toModule = .ok m ∧
      (sample.rename ("v" ++ ·)).toModule = .ok (m.renameSlots ("v" ++ ·)) := by
  have hword {x : String} (h : x.toList.head?.any Lexeme.isWordStart = true ∧
      x.toList.tail.all Lexeme.isWordChar = true ∧ x ≠ "entry") : IsVariable x :=
    ⟨isWord_iff.mpr ⟨h.1, h.2.1⟩, h.2.2⟩
  have hp : ∀ x ∈ sample.identifiers, IsVariable x := fun x hx => hword (by
    revert x
    decide +kernel)
  have hr : ∀ x ∈ sample.identifiers, IsVariable ("v" ++ x) := fun x hx => hword (by
    revert x
    decide +kernel)
  have hinj : Set.InjOn ("v" ++ ·) {x | x ∈ sample.identifiers} := by
    intro x _ y _ h
    exact (String.append_right_inj "v").mp h
  refine ⟨hp, hr, (toModule_rename sample ("v" ++ ·) hp hr hinj).resolve_right ?_⟩
  rintro ⟨e, -, he, -⟩
  exact toModule_ne_error check_sample _ he

end Program

end TinyC
