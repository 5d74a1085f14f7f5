import TinyC.Proofs.Lowering.Values

/-!
# Progress of lowering

A construct of the program is lowered from an open block to an open block. On the way it appends
blocks, which wait to be filled, ends the current block with a jump and goes on at one of those
that wait. When it is done, none of its own blocks is left waiting.
-/

namespace TinyC

open Ir Lowering

/-- From an open block, lowering gets to another one and leaves no block behind that it has made or
begun and not finished. -/
structure Advances (σ σ' : Lowering) : Prop where
  reach : Reach σ σ'
  opened : σ'.Open
  pending : ∀ j blk, σ'.builder.Pending j blk ↔ σ.builder.Pending j blk

namespace Advances

variable {σ σ' σ'' : Lowering}

theorem refl (h : σ.Open) : Advances σ σ := ⟨.refl, h, fun _ _ => .rfl⟩

theorem trans (h : Advances σ σ') (h' : Advances σ' σ'') : Advances σ σ'' :=
  ⟨h.reach.trans h'.reach, h'.opened, fun j blk => (h'.pending j blk).trans (h.pending j blk)⟩

theorem compute (hσ : σ.Open) {code : List Instr} (h : σ.Computes code) :
    Advances σ (σ.compute code) where
  reach := .single (.compute hσ h)
  opened := hσ.compute code
  pending := Builder.Open.pending_compute hσ code

theorem store (hσ : σ.Open) {v : Value} {slot : Slot}
    (h : (Instr.store v slot).Fits σ.HasSlot σ.builder.instrs σ.builder.temporaries) :
    Advances σ (σ.store v slot) where
  reach := .single (.store hσ h)
  opened := Builder.Open.append hσ _
  pending := Builder.Open.pending_append hσ _

theorem declare (hσ : σ.Open) {name : String} (h : σ.symbols.lookup? name = none) (ty : Ty) :
    Advances σ (σ.declare name ty) where
  reach := .single (.declare ty hσ h)
  opened := Builder.Open.allocate hσ _ _
  pending := Builder.Open.pending_allocate hσ name ty.slotTy

end Advances

/-! ## Blocks and jumps -/

namespace Lowering

def size (σ : Lowering) : Nat := σ.builder.function.blocks.length

abbrev blockNames (σ : Lowering) : List String := σ.builder.function.blockNames

/-- The block that would be appended. -/
def newBlock (σ : Lowering) (base : String) : Block := ⟨(σ.builder.names.fresh base).1, [], none⟩

/-- End the current block and go on at another one. -/
def leave (σ : Lowering) (t : Terminator) (j : Nat) : Lowering := (σ.close t).moveTo j

@[simp] theorem size_addBlock (σ : Lowering) (base : String) :
    (σ.addBlock base).size = σ.size + 1 := by
  simp [size, addBlock, Builder.addBlock]

variable {σ : Lowering} {t : Terminator} {j k : Nat} {blk : Block}

theorem Open.addBlock (hσ : σ.Open) (base : String) : (σ.addBlock base).Open :=
  Builder.Open.addBlock hσ base

theorem Open.pending_addBlock (hσ : σ.Open) (base : String) (j : Nat) (blk : Block) :
    (σ.addBlock base).builder.Pending j blk ↔
      σ.builder.Pending j blk ∨ j = σ.size ∧ blk = σ.newBlock base :=
  Builder.pending_addBlock (Builder.Open.current_ne hσ) base j blk

theorem Open.live_addBlock (hσ : σ.Open) {operand : Operand} (h : σ.Live operand)
    (base : String) : (σ.addBlock base).Live operand := by
  cases operand with
  | value v =>
    unfold Live Lowering.addBlock
    rw [Builder.Open.instrs_addBlock hσ base]
    exact h
  | storage slot => exact h

theorem Open.pending_leave (hσ : σ.Open) (t : Terminator) (j k : Nat) (blk : Block) :
    (σ.leave t j).builder.Pending k blk ↔ σ.builder.Pending k blk ∧ k ≠ j :=
  Builder.Open.pending_close_moveTo hσ t j k blk

theorem Open.at_leave (hσ : σ.Open) (h : σ.builder.Pending j blk) (t : Terminator) :
    (σ.leave t j).builder.At j blk := by
  obtain ⟨i, cur, hat, -⟩ := hσ
  have hclose : (σ.builder.close t).Pending j blk := (hat.pending_modifyCurrent _ j blk).mpr h
  exact hclose.at_moveTo

theorem Open.leave (hσ : σ.Open) (h : σ.builder.Pending j blk) (t : Terminator) :
    (σ.leave t j).Open :=
  ⟨j, blk, hσ.at_leave h t, h.opened⟩

theorem Open.reach_leave (hσ : σ.Open) (ht : t.Leaves σ.builder.function.blockNames
    σ.builder.instrs σ.builder.temporaries) (j : Nat) : Reach σ (σ.leave t j) :=
  .tail (.single (.close hσ ht)) (.moveTo _ j)

theorem Open.reach_br (hσ : σ.Open) {i : Nat} (hi : σ.builder.function.blocks[i]? = some blk)
    (j : Nat) : Reach σ (σ.leave (.br blk.name) j) :=
  hσ.reach_leave (.br (Builder.mem_blockNames hi)) j

theorem Open.reach_condBr (hσ : σ.Open) {v : Value} (hv : σ.Live (.value v)) (hty : v.ty = .i1)
    {i i' : Nat} {blk' : Block} (hi : σ.builder.function.blocks[i]? = some blk)
    (hi' : σ.builder.function.blocks[i']? = some blk') (j : Nat) :
    Reach σ (σ.leave (.condBr v blk.name blk'.name) j) :=
  hσ.reach_leave (.condBr hv hty (Builder.mem_blockNames hi) (Builder.mem_blockNames hi')) j

/-- Lowering has appended empty blocks. -/
structure Extends (σ σ' : Lowering) (blocks : List Block) : Prop where
  reach : Reach σ σ'
  opened : σ'.Open
  at_current : ∀ {i blk}, σ.builder.At i blk → σ'.builder.At i blk
  live : ∀ operand, σ.Live operand → σ'.Live operand
  size_eq : σ'.size = σ.size + blocks.length
  empty : ∀ blk ∈ blocks, blk.instrs = []
  pending : ∀ j blk, σ'.builder.Pending j blk ↔
    σ.builder.Pending j blk ∨ ∃ k, blocks[k]? = some blk ∧ j = σ.size + k

namespace Extends

variable {σ' : Lowering} {blocks : List Block}

theorem nil (hσ : σ.Open) : Extends σ σ [] where
  reach := .refl
  opened := hσ
  at_current h := h
  live _ h := h
  size_eq := rfl
  empty := by simp
  pending := by simp

theorem addBlock (h : Extends σ σ' blocks) {base : String} (hbase : Plain base) :
    Extends σ (σ'.addBlock base) (blocks ++ [σ'.newBlock base]) where
  reach := h.reach.tail (.addBlock σ' hbase)
  opened := h.opened.addBlock base
  at_current hat := (h.at_current hat).addBlock base
  live operand hlive := h.opened.live_addBlock (h.live operand hlive) base
  size_eq := by simp [h.size_eq, Nat.add_assoc]
  empty := by
    intro blk hblk
    rcases List.mem_append.mp hblk with hblk | hblk
    · exact h.empty blk hblk
    · rw [List.mem_singleton.mp hblk]
      rfl
  pending j blk := by
    rw [h.opened.pending_addBlock, h.pending, h.size_eq, or_assoc]
    refine or_congr_right ?_
    constructor
    · rintro (⟨k, hk, rfl⟩ | ⟨rfl, rfl⟩)
      · exact ⟨k, by rw [List.getElem?_append_left (List.getElem?_eq_some_iff.mp hk).1, hk], rfl⟩
      · exact ⟨blocks.length, by simp, rfl⟩
    · rintro ⟨k, hk, rfl⟩
      rcases Nat.lt_trichotomy k blocks.length with hlt | rfl | hlt
      · rw [List.getElem?_append_left hlt] at hk
        exact .inl ⟨k, hk, rfl⟩
      · simp only [List.getElem?_concat_length, Option.some.injEq] at hk
        exact .inr ⟨rfl, hk.symm⟩
      · rw [List.getElem?_eq_none (by simp; omega)] at hk
        cases hk

theorem pending_new (h : Extends σ σ' blocks) {k : Nat} (hk : blocks[k]? = some blk) :
    σ'.builder.Pending (σ.size + k) blk :=
  (h.pending _ _).mpr (.inr ⟨k, hk, rfl⟩)

end Extends

theorem Open.extends_two (hσ : σ.Open) {a b : String} (ha : Plain a) (hb : Plain b) :
    Extends σ ((σ.addBlock a).addBlock b) [σ.newBlock a, (σ.addBlock a).newBlock b] :=
  ((Extends.nil hσ).addBlock ha).addBlock hb

theorem Open.extends_three (hσ : σ.Open) {a b c : String} (ha : Plain a) (hb : Plain b)
    (hc : Plain c) :
    Extends σ (((σ.addBlock a).addBlock b).addBlock c)
      [σ.newBlock a, (σ.addBlock a).newBlock b, ((σ.addBlock a).addBlock b).newBlock c] :=
  (hσ.extends_two ha hb).addBlock hc

end Lowering

/-- The blocks appended have all been filled. -/
theorem Lowering.Extends.advances {σ σ' ρ : Lowering} {blocks : List Block}
    (h : Extends σ σ' blocks) (hreach : Reach σ' ρ) (hρ : ρ.Open)
    (hpending : ∀ j blk, ρ.builder.Pending j blk ↔
      σ'.builder.Pending j blk ∧ (j < σ.size ∨ σ.size + blocks.length ≤ j)) : Advances σ ρ where
  reach := h.reach.trans hreach
  opened := hρ
  pending j blk := by
    rw [hpending, h.pending]
    constructor
    · rintro ⟨hold | ⟨k, hk, rfl⟩, hj⟩
      · exact hold
      -- A new block has an index in the range that is filled.
      · have := (List.getElem?_eq_some_iff.mp hk).1
        omega
    · exact fun hold => ⟨.inl hold, .inl hold.lt⟩

end TinyC
