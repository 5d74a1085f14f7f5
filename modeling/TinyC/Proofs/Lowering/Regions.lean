import TinyC.Proofs.Ir.Edges
import TinyC.Proofs.Lowering.Progress

/-!
# Regions of control flow

What is lowered between two states is a region: the block that is current in the first state and all
blocks made since. `Connects` says that control enters it there and leaves it where lowering goes
on, and that every block of it lies on a way between the two. Regions can be put behind each other,
and the arms and bodies of constructs are regions inside others.
-/

namespace TinyC

open Ir

namespace Lowering

/-- The name of the current block. -/
def here (σ : Lowering) : String := (σ.builder.currentBlock?.map (·.name)).getD ""

abbrev Grows (σ σ' : Lowering) : Prop := σ.builder.function.Grows σ'.builder.function

abbrev Goes (σ : Lowering) (a b : String) : Prop := σ.builder.function.Goes a b

abbrev Leads (σ : Lowering) (a b : String) : Prop := σ.builder.function.Leads a b

variable {σ σ' σ₁ σ₂ σ₃ σ₄ σ₅ σ₆ : Lowering}

theorem here_of_at {i : Nat} {blk : Block} (h : σ.builder.At i blk) : σ.here = blk.name := by
  simp [here, h.currentBlock?]

theorem Open.here_mem (h : σ.Open) : σ.here ∈ σ.blockNames := by
  obtain ⟨i, cur, hat, -⟩ := h
  rw [here_of_at hat]
  exact Builder.mem_blockNames hat.block

/-- Control goes from the current block of the first state to that of the second, by way of the
blocks made in between. -/
structure Connects (σ σ' : Lowering) : Prop where
  grows : σ.Grows σ'
  leads : ∀ name ∈ σ'.blockNames, name = σ.here ∨ name ∉ σ.blockNames →
    σ'.Leads σ.here name ∧ σ'.Leads name σ'.here

namespace Connects

/-- What stays in the current block. -/
theorem stay (hgrows : σ.Grows σ') (hnames : σ'.blockNames = σ.blockNames)
    (hhere : σ'.here = σ.here) : Connects σ σ' where
  grows := hgrows
  leads := by
    rintro name hname (rfl | hnew)
    · rw [hhere]
      exact ⟨.refl, .refl⟩
    · exact absurd (hnames ▸ hname) hnew

theorem refl (σ : Lowering) : Connects σ σ := .stay (.refl _) rfl rfl

/-- From where a region begins control gets to where it ends. -/
theorem through (h : Connects σ σ') (hσ : σ.Open) : σ'.Leads σ.here σ'.here :=
  (h.leads _ (h.grows.blockNames_subset hσ.here_mem) (.inl rfl)).2

theorem seq (h : Connects σ σ₁) (h' : Connects σ₁ σ₂) (hσ : σ.Open) (hσ₁ : σ₁.Open) :
    Connects σ σ₂ where
  grows := h.grows.trans h'.grows
  leads := by
    intro name hname hregion
    by_cases hold : name ∈ σ₁.blockNames
    · obtain ⟨hin, hout⟩ := h.leads name hold hregion
      exact ⟨hin.mono h'.grows, (hout.mono h'.grows).trans (h'.through hσ₁)⟩
    · obtain ⟨hin, hout⟩ := h'.leads name hname (.inr hold)
      exact ⟨((h.through hσ).mono h'.grows).trans hin, hout⟩

end Connects

/-! ## Code -/

theorem Open.connects_compute (hσ : σ.Open) (code : List Instr) : Connects σ (σ.compute code) := by
  obtain ⟨i, cur, hat, -⟩ := id hσ
  refine .stay (Builder.Open.grows_append hσ code) (Builder.blockNames_append _ code) ?_
  rw [here_of_at (hat.compute code), here_of_at hat]

theorem Open.connects_store (hσ : σ.Open) (v : Value) (slot : Slot) :
    Connects σ (σ.store v slot) := by
  obtain ⟨i, cur, hat, -⟩ := id hσ
  refine .stay (Builder.Open.grows_append hσ _) (Builder.blockNames_append _ _) ?_
  rw [here_of_at (hat.append [.store v slot]), here_of_at hat]

theorem Open.connects_declare (hσ : σ.Open) (name : String) (ty : Ty) :
    Connects σ (σ.declare name ty) := by
  obtain ⟨i, cur, hat, -⟩ := id hσ
  refine .stay (Builder.Open.grows_append hσ _) (Builder.blockNames_append _ _) ?_
  rw [here_of_at (hat.allocate name ty.slotTy), here_of_at hat]

/-! ## Blocks and jumps -/

/-- Lowering has appended blocks of the given names, and stays where it is. -/
structure Adds (names : List String) (σ σ' : Lowering) : Prop where
  grows : σ.Grows σ'
  here_eq : σ'.here = σ.here
  blockNames_eq : σ'.blockNames = σ.blockNames ++ names

/-- Lowering has ended the current block with a jump to the targets, and goes on at another one. -/
structure Departs (targets : List String) (next : String) (σ σ' : Lowering) : Prop where
  grows : σ.Grows σ'
  goes : ∀ target ∈ targets, σ'.Goes σ.here target
  here_eq : σ'.here = next
  blockNames_eq : σ'.blockNames = σ.blockNames

theorem Adds.nil (σ : Lowering) : Adds [] σ σ := ⟨.refl _, rfl, (List.append_nil _).symm⟩

theorem Adds.addBlock {names : List String} (h : Adds names σ σ') (hσ' : σ'.Open) (base : String) :
    Adds (names ++ [(σ'.newBlock base).name]) σ (σ'.addBlock base) where
  grows := h.grows.trans (Builder.grows_addBlock _ base)
  here_eq := by
    obtain ⟨i, cur, hat, -⟩ := hσ'
    rw [here_of_at (hat.addBlock base), ← here_of_at hat, h.here_eq]
  blockNames_eq := by
    rw [blockNames, Lowering.addBlock, Builder.blockNames_addBlock, ← List.append_assoc,
      ← h.blockNames_eq]
    rfl

theorem Open.adds_two (hσ : σ.Open) (a b : String) :
    Adds [(σ.newBlock a).name, ((σ.addBlock a).newBlock b).name] σ ((σ.addBlock a).addBlock b) :=
  ((Adds.nil σ).addBlock hσ a).addBlock (hσ.addBlock a) b

theorem Open.adds_three (hσ : σ.Open) (a b c : String) :
    Adds [(σ.newBlock a).name, ((σ.addBlock a).newBlock b).name,
      (((σ.addBlock a).addBlock b).newBlock c).name] σ (((σ.addBlock a).addBlock b).addBlock c) :=
  (hσ.adds_two a b).addBlock ((hσ.addBlock a).addBlock b) c

theorem Open.departs (hσ : σ.Open) {j : Nat} {blk : Block} (hj : σ.builder.Pending j blk)
    (t : Terminator) : Departs t.targets blk.name σ (σ.leave t j) where
  grows := Builder.Open.grows_close hσ t
  goes := by
    obtain ⟨i, cur, hat, -⟩ := hσ
    intro target htarget
    rw [here_of_at hat]
    exact ⟨_, List.mem_of_getElem? (hat.close t).block, rfl, t, rfl, htarget⟩
  here_eq := here_of_at (hσ.at_leave hj t)
  blockNames_eq := Builder.blockNames_close _ t

/-! ## Constructs -/

namespace Connects

/-- A region that is passed through or passed by. -/
theorem ifThen {thenName endName : String} (h₁ : Adds [thenName, endName] σ σ₁)
    (h₂ : Departs [thenName, endName] thenName σ₁ σ₂) (h₃ : Connects σ₂ σ₃)
    (h₄ : Departs [endName] endName σ₃ σ₄) : Connects σ σ₄ := by
  have hgrows := h₃.grows.trans h₄.grows
  have henter : σ₄.Leads σ.here thenName :=
    .single ((h₁.here_eq ▸ h₂.goes thenName (by simp)).mono hgrows)
  have hpass : σ₄.Leads σ.here endName :=
    .single ((h₁.here_eq ▸ h₂.goes endName (by simp)).mono hgrows)
  have hexit : σ₄.Leads σ₃.here endName := .single (h₄.goes endName (by simp))
  refine ⟨(h₁.grows.trans h₂.grows).trans hgrows, fun name hname hregion => ?_⟩
  rw [h₄.here_eq]
  by_cases hinner : name = thenName ∨ name ∉ σ₂.blockNames
  · rw [← h₂.here_eq] at hinner henter
    obtain ⟨hin, hout⟩ := h₃.leads name (h₄.blockNames_eq ▸ hname) hinner
    exact ⟨henter.trans (hin.mono h₄.grows), (hout.mono h₄.grows).trans hexit⟩
  -- What is left are the block before and the block behind.
  · rw [h₂.blockNames_eq, h₁.blockNames_eq] at hinner
    obtain rfl | rfl : name = σ.here ∨ name = endName := by
      simp only [List.mem_append, List.mem_cons, List.not_mem_nil] at hinner
      tauto
    · exact ⟨.refl, hpass⟩
    · exact ⟨hpass, .refl⟩

/-- Two regions, one of which is passed through. -/
theorem ifElse {thenName elseName endName : String} (h₁ : Adds [thenName, elseName, endName] σ σ₁)
    (h₂ : Departs [thenName, elseName] thenName σ₁ σ₂) (h₃ : Connects σ₂ σ₃)
    (h₄ : Departs [endName] elseName σ₃ σ₄) (h₅ : Connects σ₄ σ₅) (hσ₄ : σ₄.Open)
    (h₆ : Departs [endName] endName σ₅ σ₆) : Connects σ σ₆ := by
  have hgrows := h₅.grows.trans h₆.grows
  have hgrows' := h₄.grows.trans hgrows
  have hthen : σ₆.Leads σ.here σ₂.here := by
    rw [h₂.here_eq]
    exact .single ((h₁.here_eq ▸ h₂.goes thenName (by simp)).mono (h₃.grows.trans hgrows'))
  have helse : σ₆.Leads σ.here σ₄.here := by
    rw [h₄.here_eq]
    exact .single ((h₁.here_eq ▸ h₂.goes elseName (by simp)).mono (h₃.grows.trans hgrows'))
  have hthen' : σ₆.Leads σ₃.here endName := .single ((h₄.goes endName (by simp)).mono hgrows)
  have helse' : σ₆.Leads σ₅.here endName := .single (h₆.goes endName (by simp))
  have hpass : σ₆.Leads σ.here endName :=
    (helse.trans ((h₅.through hσ₄).mono h₆.grows)).trans helse'
  refine ⟨(h₁.grows.trans h₂.grows).trans (h₃.grows.trans hgrows'), fun name hname hregion => ?_⟩
  rw [h₆.here_eq]
  -- A block belongs to the second arm, to the first, or to neither.
  by_cases hsecond : name = σ₄.here ∨ name ∉ σ₄.blockNames
  · obtain ⟨hin, hout⟩ := h₅.leads name (h₆.blockNames_eq ▸ hname) hsecond
    exact ⟨helse.trans (hin.mono h₆.grows), (hout.mono h₆.grows).trans helse'⟩
  · rw [not_or, not_not, h₄.blockNames_eq] at hsecond
    by_cases hfirst : name = σ₂.here ∨ name ∉ σ₂.blockNames
    · obtain ⟨hin, hout⟩ := h₃.leads name hsecond.2 hfirst
      exact ⟨hthen.trans (hin.mono hgrows'), (hout.mono hgrows').trans hthen'⟩
    · rw [h₂.blockNames_eq, h₁.blockNames_eq, h₂.here_eq] at hfirst
      rw [h₄.here_eq] at hsecond
      obtain rfl | rfl : name = σ.here ∨ name = endName := by
        simp only [List.mem_append, List.mem_cons, List.not_mem_nil] at hfirst
        tauto
      · exact ⟨.refl, hpass⟩
      · exact ⟨hpass, .refl⟩

/-- A region that leads back to the test in front of it. -/
theorem loop {headName bodyName exitName : String} (h₁ : Adds [headName, bodyName, exitName] σ σ₁)
    (h₂ : Departs [headName] headName σ₁ σ₂) (h₃ : Connects σ₂ σ₃) (hσ₂ : σ₂.Open)
    (h₄ : Departs [bodyName, exitName] bodyName σ₃ σ₄) (h₅ : Connects σ₄ σ₅)
    (h₆ : Departs [headName] exitName σ₅ σ₆) : Connects σ σ₆ := by
  have hgrows := h₅.grows.trans h₆.grows
  have hgrows' := h₄.grows.trans hgrows
  have henter : σ₆.Leads σ.here σ₂.here := by
    rw [h₂.here_eq]
    exact .single ((h₁.here_eq ▸ h₂.goes headName (by simp)).mono (h₃.grows.trans hgrows'))
  have htest : σ₆.Leads σ₂.here σ₃.here := (h₃.through hσ₂).mono hgrows'
  have hbody : σ₆.Leads σ₃.here σ₄.here := by
    rw [h₄.here_eq]
    exact .single ((h₄.goes bodyName (by simp)).mono hgrows)
  have hexit : σ₆.Leads σ₃.here exitName := .single ((h₄.goes exitName (by simp)).mono hgrows)
  have hback : σ₆.Leads σ₅.here σ₂.here := by
    rw [h₂.here_eq]
    exact .single (h₆.goes headName (by simp))
  have hpass : σ₆.Leads σ.here exitName := (henter.trans htest).trans hexit
  refine ⟨(h₁.grows.trans h₂.grows).trans (h₃.grows.trans hgrows'), fun name hname hregion => ?_⟩
  rw [h₆.here_eq]
  -- A block belongs to the body, to the test, or to neither.
  by_cases hinner : name = σ₄.here ∨ name ∉ σ₄.blockNames
  · obtain ⟨hin, hout⟩ := h₅.leads name (h₆.blockNames_eq ▸ hname) hinner
    exact ⟨((henter.trans htest).trans hbody).trans (hin.mono h₆.grows),
      (((hout.mono h₆.grows).trans hback).trans htest).trans hexit⟩
  · rw [not_or, not_not, h₄.blockNames_eq] at hinner
    by_cases hhead : name = σ₂.here ∨ name ∉ σ₂.blockNames
    · obtain ⟨hin, hout⟩ := h₃.leads name hinner.2 hhead
      exact ⟨henter.trans (hin.mono hgrows'), (hout.mono hgrows').trans hexit⟩
    · rw [h₂.blockNames_eq, h₁.blockNames_eq, h₂.here_eq] at hhead
      rw [h₄.here_eq] at hinner
      obtain rfl | rfl : name = σ.here ∨ name = exitName := by
        simp only [List.mem_append, List.mem_cons, List.not_mem_nil] at hhead
        tauto
      · exact ⟨.refl, hpass⟩
      · exact ⟨hpass, .refl⟩

end Connects

end Lowering

end TinyC
