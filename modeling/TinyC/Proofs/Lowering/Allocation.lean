import TinyC.Proofs.Ir.Allocation
import TinyC.Proofs.Lowering.Expression
import TinyC.Proofs.Lowering.Invariants
import TinyC.Proofs.Lowering.Progress
import TinyC.Proofs.Program.Flow

/-!
# What lowering does with the slot of a variable

`Traces` compares what is emitted between two states with a flow, for one variable and its slot.
Where control may get to the first state without the slot, it may get to the second one without it
unless the flow declares the variable, and it meets an early use in between exactly if the flow has
one. Constructs follow from their parts by what appending blocks and jumping to them do.
-/

namespace TinyC

open Ir

namespace Lowering

/-- Control may get to the block of a name without the slot. -/
abbrev Skips (σ : Lowering) (s : Slot) (name : String) : Prop := σ.builder.function.Skips s name

/-- Control may get to where lowering is without the slot. -/
abbrev Misses (σ : Lowering) (s : Slot) : Prop := σ.builder.Misses s

/-- Something emitted so far uses the slot too early. -/
abbrev Exposes (σ : Lowering) (s : Slot) : Prop := σ.builder.function.Exposes s

variable {σ σ' σ₁ σ₂ σ₃ σ₄ σ₅ σ₆ : Lowering} {s : Slot} {x : String} {F G : Flow}

/-- What is emitted between two states does with a slot what a flow does with the variable. -/
structure Traces (F : Flow) (x : String) (s : Slot) (σ σ' : Lowering) : Prop where
  misses : σ'.Misses s ↔ σ.Misses s ∧ ¬F.Declares x
  exposes : σ'.Exposes s ↔ σ.Exposes s ∨ σ.Misses s ∧ F.UsesEarly x
  skips : ∀ name ∈ σ.blockNames, (σ'.Skips s name ↔ σ.Skips s name)
  subset : σ.blockNames ⊆ σ'.blockNames

namespace Traces

theorem refl (σ : Lowering) : Traces .none x s σ σ where
  misses := by simp [Flow.none]
  exposes := by simp [Flow.none]
  skips _ _ := .rfl
  subset := List.Subset.refl _

theorem seq (h : Traces F x s σ σ₁) (h' : Traces G x s σ₁ σ₂) : Traces (F.seq G) x s σ σ₂ where
  misses := by
    simp only [h'.misses, h.misses, Flow.seq, not_or, and_assoc]
  exposes := by
    simp only [h'.exposes, h.exposes, h.misses, Flow.seq, and_or_left, and_assoc, or_assoc]
  skips name hname := (h'.skips name (h.subset hname)).trans (h.skips name hname)
  subset := List.Subset.trans h.subset h'.subset

/-! ### Code -/

/-- Code at the end of the current block. -/
theorem of_append {code : List Instr} {i : Nat} {cur : Block} (hat : σ.builder.At i cur)
    (hcur : cur.terminator = none)
    (hat' : σ'.builder.At i { cur with instrs := cur.instrs ++ code })
    (hfunction : σ'.builder.function = (σ.builder.append code).function)
    (hmade : .alloca s ∈ code ↔ F.Declares x) (hearly : UsesEarly s code ↔ F.UsesEarly x) :
    Traces F x s σ σ' where
  misses := by
    rw [Misses, Misses, hat'.misses_iff, hfunction, hat.skips_append hcur, List.mem_append, not_or,
      hat.misses_iff, hmade, and_assoc]
  exposes := by rw [Exposes, hfunction, hat.exposes_append hcur, hearly]
  skips name _ := by rw [Skips, hfunction, hat.skips_append hcur]
  subset := by
    rw [blockNames, blockNames, hfunction, Builder.blockNames_append]
    exact List.Subset.refl _

theorem store (hσ : σ.Open) {name : String} {slot : Slot} (hslot : slot = s ↔ name = x)
    (v : Value) : Traces (.use name) x s σ (σ.store v slot) := by
  obtain ⟨i, cur, hat, hcur⟩ := hσ
  refine .of_append hat hcur (hat.append _) rfl ?_ ?_
  · simp [Flow.use]
  · simp [Instr.slot?, Flow.use, hslot, eq_comm (a := x)]

theorem declare (hσ : σ.Open) {name : String} {ty : Ty}
    (hslot : σ.builder.nextSlot name ty.slotTy = s ↔ name = x) :
    Traces (.declare name) x s σ (σ.declare name ty) := by
  obtain ⟨i, cur, hat, hcur⟩ := hσ
  refine .of_append hat hcur (hat.allocate _ _) rfl ?_ ?_
  · simp [Flow.declare, eq_comm (a := s), hslot, eq_comm (a := x)]
  · simp [Instr.slot?, Flow.declare]

end Traces

/-! ### Blocks and jumps -/

/-- Lowering has appended blocks of the given names, to which nothing leads yet. -/
structure Appends (s : Slot) (names : List String) (σ σ' : Lowering) : Prop where
  misses : σ'.Misses s ↔ σ.Misses s
  exposes : σ'.Exposes s ↔ σ.Exposes s
  skips : ∀ name, σ'.Skips s name ↔ σ.Skips s name
  blockNames_eq : σ'.blockNames = σ.blockNames ++ names
  nodup : σ'.blockNames.Nodup
  fresh : ∀ name ∈ names, ¬σ.Skips s name

/-- Lowering has ended the current block, which leads to the targets, and goes on at an empty
block. -/
structure Jumps (s : Slot) (targets : List String) (next : String) (σ σ' : Lowering) : Prop where
  misses : σ'.Misses s ↔ σ'.Skips s next
  exposes : σ'.Exposes s ↔ σ.Exposes s
  skips : ∀ name, σ'.Skips s name ↔ σ.Skips s name ∨ name ∈ targets ∧ σ.Misses s
  blockNames_eq : σ'.blockNames = σ.blockNames

theorem Invariant.nodup_blockNames (h : σ.Invariant) : σ.blockNames.Nodup :=
  (List.nodup_append.mp h.names).1

theorem Invariant.mem_blockNames (h : σ.Invariant) {name : String} (hskips : σ.Skips s name) :
    name ∈ σ.blockNames :=
  hskips.mem_blockNames fun blk hblk t ht => ((h.blocks blk hblk).terminator t ht).targets

namespace Appends

variable {names : List String}

theorem nil (h : σ.Invariant) : Appends s [] σ σ where
  misses := .rfl
  exposes := .rfl
  skips _ := .rfl
  blockNames_eq := (List.append_nil _).symm
  nodup := h.nodup_blockNames
  fresh := by simp

theorem addBlock (h : Appends s names σ σ') (hσ' : σ'.Open) (hinv : σ'.Invariant) {base : String}
    (hbase : Plain base) :
    Appends s (names ++ [(σ'.newBlock base).name]) σ (σ'.addBlock base) where
  misses := (Builder.Open.misses_addBlock hσ' base).trans h.misses
  exposes := (Builder.Open.exposes_addBlock hσ' base).trans h.exposes
  skips name := (Builder.Open.skips_addBlock hσ' base).trans (h.skips name)
  blockNames_eq := by
    rw [blockNames, Lowering.addBlock, Builder.blockNames_addBlock, ← List.append_assoc,
      ← h.blockNames_eq]
    rfl
  nodup := (Move.invariant (.addBlock σ' hbase) hinv).nodup_blockNames
  fresh name hname := by
    rcases List.mem_append.mp hname with hname | hname
    · exact h.fresh name hname
    -- A name that the table gives out is not the name of a block.
    · rw [← h.skips, List.mem_singleton.mp hname]
      intro hskips
      refine σ'.builder.names.fresh_not_mem base (hinv.known ?_)
      exact List.mem_append_left _ (hinv.mem_blockNames hskips)

end Appends

theorem Open.appends_two (hσ : σ.Open) (hinv : σ.Invariant) {a b : String} (ha : Plain a)
    (hb : Plain b) :
    Appends s [(σ.newBlock a).name, ((σ.addBlock a).newBlock b).name] σ
      ((σ.addBlock a).addBlock b) :=
  ((Appends.nil hinv).addBlock hσ hinv ha).addBlock (hσ.addBlock a)
    (hinv.of_reach (.single (.addBlock σ ha))) hb

theorem Open.appends_three (hσ : σ.Open) (hinv : σ.Invariant) {a b c : String} (ha : Plain a)
    (hb : Plain b) (hc : Plain c) :
    Appends s [(σ.newBlock a).name, ((σ.addBlock a).newBlock b).name,
      (((σ.addBlock a).addBlock b).newBlock c).name] σ (((σ.addBlock a).addBlock b).addBlock c) :=
  (hσ.appends_two hinv ha hb).addBlock (hσ.extends_two ha hb).opened
    (hinv.of_reach (hσ.extends_two ha hb).reach) hc

theorem Open.jumps (hσ : σ.Open) (hinv : σ.Invariant) {t : Terminator} {j : Nat} {blk : Block}
    (hj : σ.builder.Pending j blk) (hempty : blk.instrs = [])
    (ht : ∀ name ∈ t.targets, σ.builder.Admits s name) :
    Jumps s t.targets blk.name σ (σ.leave t j) where
  misses := by
    rw [Misses, (hσ.at_leave hj t).misses_iff, hempty]
    simp
  exposes := by
    obtain ⟨i, cur, hat, hcur⟩ := hσ
    exact hat.exposes_close hcur hinv.nodup_blockNames ht
  skips name := by
    obtain ⟨i, cur, hat, hcur⟩ := hσ
    exact hat.skips_close hcur hinv.nodup_blockNames ht
  blockNames_eq := Builder.blockNames_close _ _

theorem Open.jumps_br (hσ : σ.Open) (hinv : σ.Invariant) {j : Nat} {blk : Block}
    (hj : σ.builder.Pending j blk) (hempty : blk.instrs = []) {target : String}
    (ht : σ.builder.Admits s target) : Jumps s [target] blk.name σ (σ.leave (.br target) j) := by
  refine hσ.jumps (t := .br target) hinv hj hempty ?_
  simpa [Terminator.targets] using ht

theorem Open.jumps_condBr (hσ : σ.Open) (hinv : σ.Invariant) {j : Nat} {blk : Block}
    (hj : σ.builder.Pending j blk) (hempty : blk.instrs = []) {target target' : String}
    (ht : σ.builder.Admits s target) (ht' : σ.builder.Admits s target') (v : Value) :
    Jumps s [target, target'] blk.name σ (σ.leave (.condBr v target target') j) := by
  refine hσ.jumps (t := .condBr v target target') hinv hj hempty ?_
  simpa [Terminator.targets] using ⟨ht, ht'⟩

/-! ### Constructs -/

namespace Appends

variable {names targets : List String} {next name : String}

theorem not_mem (h : Appends s names σ σ₁) (hname : name ∈ names) : name ∉ σ.blockNames := by
  have hnodup := h.nodup
  rw [h.blockNames_eq] at hnodup
  exact fun hold => (List.nodup_append.mp hnodup).2.2 name hold name hname rfl

theorem nodup_names (h : Appends s names σ σ₁) : names.Nodup := by
  have hnodup := h.nodup
  rw [h.blockNames_eq] at hnodup
  exact (List.nodup_append.mp hnodup).2.1

/-- Only the jump leads to the new blocks. -/
theorem skips_new (h : Appends s names σ σ₁) (h' : Jumps s targets next σ₁ σ₂)
    (hname : name ∈ names) : σ₂.Skips s name ↔ name ∈ targets ∧ σ.Misses s := by
  rw [h'.skips, h.skips, h.misses, or_iff_right (h.fresh name hname)]

theorem skips_old (h : Appends s names σ σ₁) (h' : Jumps s targets next σ₁ σ₂)
    (htargets : targets ⊆ names) (hname : name ∈ σ.blockNames) :
    σ₂.Skips s name ↔ σ.Skips s name := by
  rw [h'.skips, h.skips]
  exact or_iff_left fun hmem => h.not_mem (htargets hmem.1) hname

theorem subset (h : Appends s names σ σ₁) (h' : Jumps s targets next σ₁ σ₂) :
    σ.blockNames ++ names ⊆ σ₂.blockNames := by
  rw [h'.blockNames_eq, h.blockNames_eq]
  exact List.Subset.refl _

end Appends

namespace Jumps

variable {target next name : String}

/-- Nothing changes for a block that is not jumped to. -/
theorem skips_of_ne (h : Jumps s [target] next σ σ') (hne : name ≠ target) :
    σ'.Skips s name ↔ σ.Skips s name := by
  rw [h.skips]
  exact or_iff_left fun hmem => hne (List.mem_singleton.mp hmem.1)

theorem skips_target (h : Jumps s [target] next σ σ') :
    σ'.Skips s target ↔ σ.Skips s target ∨ σ.Misses s := by
  simp [h.skips]

end Jumps

namespace Traces

theorem subset_jumps {targets : List String} {next : String} (h : Traces F x s σ σ₁)
    (h' : Jumps s targets next σ₁ σ₂) : σ.blockNames ⊆ σ₂.blockNames := by
  rw [h'.blockNames_eq]
  exact h.subset

/-- A piece that is run or passed by. -/
theorem ifThen {thenName endName : String} (h₁ : Appends s [thenName, endName] σ σ₁)
    (h₂ : Jumps s [thenName, endName] thenName σ₁ σ₂) (h₃ : Traces F x s σ₂ σ₃)
    (h₄ : Jumps s [endName] endName σ₃ σ₄) : Traces F.maybe x s σ σ₄ := by
  have hthen : σ₂.Skips s thenName ↔ σ.Misses s := by simp [h₁.skips_new h₂]
  have hend : σ₂.Skips s endName ↔ σ.Misses s := by simp [h₁.skips_new h₂]
  have hmem := List.append_subset.mp (h₁.subset h₂)
  refine ⟨?_, ?_, fun name hname => ?_, ?_⟩
  · rw [h₄.misses, h₄.skips_target, h₃.misses, h₃.skips _ (hmem.2 (by simp)), h₂.misses, hthen,
      hend]
    simp +contextual [Flow.maybe, Flow.either, Flow.none]
  · rw [h₄.exposes, h₃.exposes, h₂.misses, hthen, h₂.exposes, h₁.exposes]
    simp [Flow.maybe, Flow.either, Flow.none]
  · have hne : name ≠ endName := by
      rintro rfl
      exact h₁.not_mem (by simp) hname
    rw [h₄.skips_of_ne hne, h₃.skips _ (hmem.1 hname),
      h₁.skips_old h₂ (List.Subset.refl _) hname]
  · exact List.Subset.trans hmem.1 (h₃.subset_jumps h₄)

/-- One of two pieces is run. -/
theorem ifElse {thenName elseName endName : String}
    (h₁ : Appends s [thenName, elseName, endName] σ σ₁)
    (h₂ : Jumps s [thenName, elseName] thenName σ₁ σ₂) (h₃ : Traces F x s σ₂ σ₃)
    (h₄ : Jumps s [endName] elseName σ₃ σ₄) (h₅ : Traces G x s σ₄ σ₅)
    (h₆ : Jumps s [endName] endName σ₅ σ₆) : Traces (F.either G) x s σ σ₆ := by
  have hnodup := h₁.nodup_names
  simp only [List.nodup_cons, List.mem_cons, List.not_mem_nil, or_false, not_or] at hnodup
  have hthen : σ₂.Skips s thenName ↔ σ.Misses s := by simp [h₁.skips_new h₂]
  have helse : σ₂.Skips s elseName ↔ σ.Misses s := by simp [h₁.skips_new h₂]
  have hend : ¬σ₂.Skips s endName := by
    simp [h₁.skips_new h₂, Ne.symm hnodup.1.2, Ne.symm hnodup.2.1]
  have hmem := List.append_subset.mp (h₁.subset h₂)
  have hmem₄ := h₃.subset_jumps h₄
  -- The second arm is entered as if the first were not there.
  have hmisses₄ : σ₄.Misses s ↔ σ.Misses s := by
    rw [h₄.misses, h₄.skips_of_ne hnodup.2.1, h₃.skips _ (hmem.2 (by simp)), helse]
  have hend₅ : σ₅.Skips s endName ↔ σ.Misses s ∧ ¬F.Declares x := by
    rw [h₅.skips _ (hmem₄ (hmem.2 (by simp))), h₄.skips_target, h₃.skips _ (hmem.2 (by simp)),
      or_iff_right hend, h₃.misses, h₂.misses, hthen]
  refine ⟨?_, ?_, fun name hname => ?_, ?_⟩
  · rw [h₆.misses, h₆.skips_target, hend₅, h₅.misses, hmisses₄]
    simp only [Flow.either, not_and_or, and_or_left]
  · rw [h₆.exposes, h₅.exposes, hmisses₄, h₄.exposes, h₃.exposes, h₂.misses, hthen, h₂.exposes,
      h₁.exposes]
    simp only [Flow.either, and_or_left, or_assoc]
  · have hne : name ≠ endName := by
      rintro rfl
      exact h₁.not_mem (by simp) hname
    rw [h₆.skips_of_ne hne, h₅.skips _ (hmem₄ (hmem.1 hname)), h₄.skips_of_ne hne,
      h₃.skips _ (hmem.1 hname), h₁.skips_old h₂ (by simp) hname]
  · exact List.Subset.trans hmem.1 (List.Subset.trans hmem₄ (h₅.subset_jumps h₆))

/-- Control that has gone through a loop without the slot has come to its head without it. -/
theorem skips_head {headName bodyName exitName : String}
    (h₁ : Appends s [headName, bodyName, exitName] σ σ₁) (h₂ : Jumps s [headName] headName σ₁ σ₂)
    (h₃ : Traces G x s σ₂ σ₃) (h₄ : Jumps s [bodyName, exitName] bodyName σ₃ σ₄)
    (h₅ : Traces F x s σ₄ σ₅) (hmiss : σ₅.Misses s) : σ₅.Skips s headName := by
  have hmem := (List.append_subset.mp (h₁.subset h₂)).2
  -- The body is entered from the head only.
  have hbody : ¬σ₂.Skips s bodyName := by
    have hne : bodyName ≠ headName := by
      rintro rfl
      simpa using h₁.nodup_names
    simp [h₁.skips_new h₂, hne]
  have hmiss₄ := (h₅.misses.mp hmiss).1
  rw [h₄.misses, h₄.skips, h₃.skips _ (hmem (by simp)), or_iff_right hbody, h₃.misses,
    h₂.misses] at hmiss₄
  rw [h₅.skips _ (h₃.subset_jumps h₄ (hmem (by simp))), h₄.skips, h₃.skips _ (hmem (by simp))]
  exact .inl hmiss₄.2.1

/-- A piece that is run any number of times, each time behind a test. -/
theorem loop {headName bodyName exitName : String} (hG : ¬G.Declares x)
    (h₁ : Appends s [headName, bodyName, exitName] σ σ₁) (h₂ : Jumps s [headName] headName σ₁ σ₂)
    (h₃ : Traces G x s σ₂ σ₃) (h₄ : Jumps s [bodyName, exitName] bodyName σ₃ σ₄)
    (h₅ : Traces F x s σ₄ σ₅) (h₆ : Jumps s [headName] exitName σ₅ σ₆) :
    Traces (G.seq F.maybe) x s σ σ₆ := by
  have hnodup := h₁.nodup_names
  simp only [List.nodup_cons, List.mem_cons, List.not_mem_nil, or_false, not_or] at hnodup
  have hmem := List.append_subset.mp (h₁.subset h₂)
  have hmem₄ := h₃.subset_jumps h₄
  have hmisses₂ : σ₂.Misses s ↔ σ.Misses s := by
    rw [h₂.misses, h₁.skips_new h₂ (by simp)]
    simp
  have hbody : ¬σ₂.Skips s bodyName := by simp [h₁.skips_new h₂, Ne.symm hnodup.1.1]
  have hexit : ¬σ₂.Skips s exitName := by simp [h₁.skips_new h₂, Ne.symm hnodup.1.2]
  have hmisses₄ : σ₄.Misses s ↔ σ.Misses s := by
    rw [h₄.misses, h₄.skips, h₃.skips _ (hmem.2 (by simp)), or_iff_right hbody, h₃.misses, hmisses₂]
    simp [hG]
  have hexit₅ : σ₅.Skips s exitName ↔ σ.Misses s := by
    rw [h₅.skips _ (hmem₄ (hmem.2 (by simp))), h₄.skips, h₃.skips _ (hmem.2 (by simp)),
      or_iff_right hexit, h₃.misses, hmisses₂]
    simp [hG]
  refine ⟨?_, ?_, fun name hname => ?_, ?_⟩
  · rw [h₆.misses, h₆.skips_of_ne (Ne.symm hnodup.1.2), hexit₅]
    simp [Flow.seq, Flow.maybe, Flow.either, Flow.none, hG]
  · rw [h₆.exposes, h₅.exposes, hmisses₄, h₄.exposes, h₃.exposes, hmisses₂, h₂.exposes, h₁.exposes]
    simp [Flow.seq, Flow.maybe, Flow.either, Flow.none, hG, and_or_left, or_assoc]
  · have hne : ∀ target ∈ [headName, bodyName, exitName], name ≠ target := by
      rintro target htarget rfl
      exact h₁.not_mem htarget hname
    rw [h₆.skips_of_ne (hne _ (by simp)), h₅.skips _ (hmem₄ (hmem.1 hname)), h₄.skips,
      h₃.skips _ (hmem.1 hname), h₁.skips_old h₂ (by simp) hname]
    simp [hne]
  · exact List.Subset.trans hmem.1 (List.Subset.trans hmem₄ (h₅.subset_jumps h₆))

end Traces

end Lowering

theorem Expr.Yields.traces {e : Expr} {σ : Lowering} {ty : Ir.Ty} {f : Val → Val} {v : Value}
    {code : List Instr} (h : e.Yields σ ty f v code) (hσ : σ.Open) {x : String} {s : Slot}
    (hs : σ.symbols.Owns x s) : Lowering.Traces e.flow x s σ (σ.compute code) := by
  obtain ⟨i, cur, hat, hcur⟩ := hσ
  refine .of_append hat hcur (hat.compute code) rfl ?_ ?_
  · simp [not_mem_of_made h.computes.made]
  · rw [usesEarly_of_made h.computes.made, h.uses x s hs, e.usesEarly_iff]

end TinyC
