import TinyC.Ir.Builder
import TinyC.Proofs.Ir.Names

/-!
# Builder operations as functions on builders

At a block that takes instructions no operation fails, and each of them is a plain function on
builders: `append` and `compute` add instructions to the current block, `allocate` makes a slot,
`close` ends the block, `addBlock` and `moveTo` make and choose blocks. Blocks only ever grow: an
open block at its end, a sealed block not at all.
-/

namespace TinyC.Ir

/-- The name of the register with the given number. -/
def regName (n : Nat) : String := "." ++ toString n

theorem regName_injective : Function.Injective regName := by
  intro m n h
  simp only [regName, String.append_right_inj] at h
  exact Nat.repr_injective h

theorem not_plain_regName (n : Nat) : ¬ Plain (regName n) := by
  intro h
  have hhead := h.head
  rw [regName, String.toList_append] at hhead
  simp at hhead

theorem unbroken_regName (n : Nat) : Unbroken (regName n) :=
  unbroken_append.mpr ⟨by decide, unbroken_number n⟩

/-! ## Growth -/

/-- What a block may become later on. -/
structure Block.Grows (old new : Block) : Prop where
  name : new.name = old.name
  instrs : old.instrs <+: new.instrs
  of_sealed : old.terminator.isSome → new = old

namespace Block.Grows

theorem refl (b : Block) : b.Grows b := ⟨rfl, List.prefix_refl _, fun _ => rfl⟩

theorem trans {a b c : Block} (hab : a.Grows b) (hbc : b.Grows c) : a.Grows c where
  name := hbc.name.trans hab.name
  instrs := hab.instrs.trans hbc.instrs
  of_sealed h := by
    -- A sealed block stays as it is twice.
    obtain rfl := hab.of_sealed h
    exact hbc.of_sealed h

end Block.Grows

/-- Blocks keep their places and grow, and new ones come behind them. -/
def Function.Grows (old new : Function) : Prop :=
  ∀ (j : Nat) (blk : Block), old.blocks[j]? = some blk →
    ∃ blk', new.blocks[j]? = some blk' ∧ blk.Grows blk'

namespace Function.Grows

theorem refl (f : Function) : f.Grows f := fun _ blk h => ⟨blk, h, .refl blk⟩

theorem trans {f g h : Function} (hfg : f.Grows g) (hgh : g.Grows h) : f.Grows h := by
  intro j blk hblk
  obtain ⟨blk', hblk', hgrow⟩ := hfg j blk hblk
  obtain ⟨blk'', hblk'', hgrow'⟩ := hgh j blk' hblk'
  exact ⟨blk'', hblk'', hgrow.trans hgrow'⟩

end Function.Grows

namespace Builder

/-! ## The current block -/

/-- The cursor is at the block of index `i`, which is `blk`. -/
structure At (b : Builder) (i : Nat) (blk : Block) : Prop where
  current : b.current = some ⟨i⟩
  block : b.function.blocks[i]? = some blk

/-- The current block takes instructions. -/
def Open (b : Builder) : Prop := ∃ i blk, b.At i blk ∧ blk.terminator = none

/-- The instructions of the current block. -/
def instrs (b : Builder) : List Instr := (b.currentBlock?.map (·.instrs)).getD []

theorem At.lt {b : Builder} {i : Nat} {blk : Block} (h : b.At i blk) :
    i < b.function.blocks.length :=
  (List.getElem?_eq_some_iff.mp h.block).1

theorem At.currentBlock? {b : Builder} {i : Nat} {blk : Block} (h : b.At i blk) :
    b.currentBlock? = some blk := by
  simp [Builder.currentBlock?, h.current, h.block]

theorem At.instrs {b : Builder} {i : Nat} {blk : Block} (h : b.At i blk) :
    b.instrs = blk.instrs := by
  simp [Builder.instrs, h.currentBlock?]

theorem At.unique {b : Builder} {i j : Nat} {blk blk' : Block} (h : b.At i blk)
    (h' : b.At j blk') : i = j ∧ blk = blk' := by
  have hij := h.current.symm.trans h'.current
  simp only [Option.some.injEq, BlockId.mk.injEq] at hij
  subst hij
  exact ⟨rfl, Option.some.inj (h.block.symm.trans h'.block)⟩

theorem Open.current_ne {b : Builder} (h : b.Open) :
    b.current ≠ some ⟨b.function.blocks.length⟩ := by
  obtain ⟨i, blk, hat, -⟩ := h
  intro hcurrent
  have hi := BlockId.mk.inj (Option.some.inj (hat.current.symm.trans hcurrent))
  exact absurd hat.lt (by omega)

theorem Open.refusal? {b : Builder} (h : b.Open) : b.refusal? = none := by
  obtain ⟨i, blk, hat, hopen⟩ := h
  simp [Builder.refusal?, hat.currentBlock?, hopen]

theorem Open.isSealed {b : Builder} (h : b.Open) : b.isSealed = false := by
  obtain ⟨i, blk, hat, hopen⟩ := h
  simp [Builder.isSealed, hat.currentBlock?, hopen]

/-! ## Changing the current block -/

@[simp] theorem modifyCurrent_current (b : Builder) (f : Block → Block) :
    (b.modifyCurrent f).current = b.current := by
  unfold modifyCurrent
  split <;> rfl

@[simp] theorem modifyCurrent_names (b : Builder) (f : Block → Block) :
    (b.modifyCurrent f).names = b.names := by
  unfold modifyCurrent
  split <;> rfl

@[simp] theorem modifyCurrent_temporaries (b : Builder) (f : Block → Block) :
    (b.modifyCurrent f).temporaries = b.temporaries := by
  unfold modifyCurrent
  split <;> rfl

@[simp] theorem modifyCurrent_ret (b : Builder) (f : Block → Block) :
    (b.modifyCurrent f).function.ret = b.function.ret := by
  unfold modifyCurrent
  split <;> rfl

@[simp] theorem modifyCurrent_name (b : Builder) (f : Block → Block) :
    (b.modifyCurrent f).function.name = b.function.name := by
  unfold modifyCurrent
  split <;> rfl

theorem At.modifyCurrent_blocks {b : Builder} {i : Nat} {blk : Block} (h : b.At i blk)
    (f : Block → Block) (j : Nat) :
    (b.modifyCurrent f).function.blocks[j]? =
      if j = i then some (f blk) else b.function.blocks[j]? := by
  simp only [modifyCurrent, h.current, List.getElem?_modify]
  by_cases hij : j = i
  · subst hij
    simp [h.block]
  · simp [hij, Ne.symm hij]

theorem At.modifyCurrent {b : Builder} {i : Nat} {blk : Block} (h : b.At i blk)
    (f : Block → Block) : (b.modifyCurrent f).At i (f blk) where
  current := by simp [h.current]
  block := by simp [h.modifyCurrent_blocks f]

/-- The blocks around the current one. -/
theorem At.split {b : Builder} {i : Nat} {blk : Block} (h : b.At i blk) :
    ∃ pre post, b.function.blocks = pre ++ blk :: post ∧ ∀ f : Block → Block,
      (b.modifyCurrent f).function.blocks = pre ++ f blk :: post := by
  obtain ⟨hlt, hget⟩ := List.getElem?_eq_some_iff.mp h.block
  refine ⟨b.function.blocks.take i, b.function.blocks.drop (i + 1), ?_, fun f => ?_⟩
  · rw [← hget, List.getElem_cons_drop, List.take_append_drop]
  · simp only [Builder.modifyCurrent, h.current]
    rw [List.modify_eq_take_cons_drop hlt, hget]

/-! ## Operations -/

/-- Add instructions to the current block. -/
def append (b : Builder) (instrs : List Instr) : Builder :=
  b.modifyCurrent fun block => { block with instrs := block.instrs ++ instrs }

/-- Add instructions that each take up a register. -/
def compute (b : Builder) (code : List Instr) : Builder :=
  { b.append code with temporaries := b.temporaries + code.length }

/-- End the current block. -/
def close (b : Builder) (terminator : Terminator) : Builder :=
  b.modifyCurrent fun block => { block with terminator := some terminator }

/-- Append an empty block. -/
def addBlock (b : Builder) (base : String) : Builder :=
  { b with
    names := (b.names.fresh base).2
    function.blocks := b.function.blocks ++ [⟨(b.names.fresh base).1, [], none⟩] }

/-- Put the cursor at a block. -/
def moveTo (b : Builder) (j : Nat) : Builder := { b with current := some ⟨j⟩ }

/-- The slot that would be made for a name. -/
def nextSlot (b : Builder) (base : String) (ty : Ty) : Slot := ⟨(b.names.fresh base).1, ty⟩

/-- Make a slot. -/
def allocate (b : Builder) (base : String) (ty : Ty) : Builder :=
  { b.append [.alloca (b.nextSlot base ty)] with names := (b.names.fresh base).2 }

/-- The register that would be given out next. -/
def nextReg (b : Builder) (ty : Ty) : Reg := ⟨regName (b.temporaries + 1), ty⟩

theorem At.append {b : Builder} {i : Nat} {blk : Block} (h : b.At i blk) (instrs : List Instr) :
    (b.append instrs).At i { blk with instrs := blk.instrs ++ instrs } :=
  h.modifyCurrent _

theorem At.compute {b : Builder} {i : Nat} {blk : Block} (h : b.At i blk) (code : List Instr) :
    (b.compute code).At i { blk with instrs := blk.instrs ++ code } :=
  ⟨(h.append code).current, (h.append code).block⟩

theorem At.allocate {b : Builder} {i : Nat} {blk : Block} (h : b.At i blk) (base : String)
    (ty : Ty) :
    (b.allocate base ty).At i
      { blk with instrs := blk.instrs ++ [.alloca (b.nextSlot base ty)] } :=
  ⟨(h.append _).current, (h.append _).block⟩

theorem At.close {b : Builder} {i : Nat} {blk : Block} (h : b.At i blk) (t : Terminator) :
    (b.close t).At i { blk with terminator := some t } :=
  h.modifyCurrent _

theorem At.addBlock {b : Builder} {i : Nat} {blk : Block} (h : b.At i blk) (base : String) :
    (b.addBlock base).At i blk where
  current := h.current
  block := by
    simp only [Builder.addBlock]
    rw [List.getElem?_append_left h.lt, h.block]

@[simp] theorem append_nil (b : Builder) : b.append [] = b := by
  -- Adding no instruction is the identity on blocks, which `List.modify_id` needs to see.
  have hid : (fun block : Block => { block with instrs := block.instrs ++ [] }) = id := by
    funext block
    simp
  simp only [append, modifyCurrent, hid, List.modify_id]
  split <;> rfl

@[simp] theorem compute_nil (b : Builder) : b.compute [] = b := by
  simp [compute]

theorem append_append (b : Builder) (code code' : List Instr) :
    (b.append code).append code' = b.append (code ++ code') := by
  cases b with
  | mk function current names temporaries =>
    cases current with
    | none => rfl
    | some block =>
      simp only [append, modifyCurrent, List.modify_modify_eq, Function.comp_def,
        List.append_assoc]

theorem compute_compute (b : Builder) (code code' : List Instr) :
    (b.compute code).compute code' = b.compute (code ++ code') := by
  have happ : { b.append code with temporaries := b.temporaries + code.length }.append code' =
      { (b.append code).append code' with temporaries := b.temporaries + code.length } := by
    simp only [append, modifyCurrent]
    split <;> rfl
  simp only [compute, happ, append_append, List.length_append, Nat.add_assoc]

theorem Open.append {b : Builder} (h : b.Open) (instrs : List Instr) : (b.append instrs).Open := by
  obtain ⟨i, blk, hat, hopen⟩ := h
  exact ⟨i, _, hat.append instrs, hopen⟩

theorem Open.compute {b : Builder} (h : b.Open) (code : List Instr) : (b.compute code).Open := by
  obtain ⟨i, blk, hat, hopen⟩ := h
  exact ⟨i, _, hat.compute code, hopen⟩

theorem Open.allocate {b : Builder} (h : b.Open) (base : String) (ty : Ty) :
    (b.allocate base ty).Open := by
  obtain ⟨i, blk, hat, hopen⟩ := h
  exact ⟨i, _, hat.allocate base ty, hopen⟩

theorem Open.addBlock {b : Builder} (h : b.Open) (base : String) : (b.addBlock base).Open := by
  obtain ⟨i, blk, hat, hopen⟩ := h
  exact ⟨i, blk, hat.addBlock base, hopen⟩

theorem Open.instrs_addBlock {b : Builder} (h : b.Open) (base : String) :
    (b.addBlock base).instrs = b.instrs := by
  obtain ⟨i, blk, hat, -⟩ := h
  rw [(hat.addBlock base).instrs, hat.instrs]

theorem Open.instrs_compute {b : Builder} (h : b.Open) (code : List Instr) :
    (b.compute code).instrs = b.instrs ++ code := by
  obtain ⟨i, blk, hat, -⟩ := h
  rw [(hat.compute code).instrs, hat.instrs]

/-! ### Growth of the function -/

theorem Open.grows_modifyCurrent {b : Builder} (h : b.Open) {f : Block → Block}
    (hname : ∀ blk, (f blk).name = blk.name) (hinstrs : ∀ blk, blk.instrs <+: (f blk).instrs) :
    b.function.Grows (b.modifyCurrent f).function := by
  obtain ⟨i, blk, hat, hopen⟩ := h
  intro j old hold
  rw [hat.modifyCurrent_blocks]
  -- The current block is open, so nothing is asked of it but that it grows at its end.
  by_cases hij : j = i
  · subst hij
    obtain rfl := Option.some.inj (hat.block.symm.trans hold)
    exact ⟨f blk, by simp, hname blk, hinstrs blk, by simp [hopen]⟩
  · exact ⟨old, by simp [hij, hold], .refl old⟩

theorem Open.grows_append {b : Builder} (h : b.Open) (instrs : List Instr) :
    b.function.Grows (b.append instrs).function :=
  h.grows_modifyCurrent (fun _ => rfl) (fun _ => List.prefix_append _ _)

theorem Open.grows_close {b : Builder} (h : b.Open) (t : Terminator) :
    b.function.Grows (b.close t).function :=
  h.grows_modifyCurrent (fun _ => rfl) (fun _ => List.prefix_refl _)

theorem grows_addBlock (b : Builder) (base : String) :
    b.function.Grows (b.addBlock base).function := by
  intro j blk hblk
  refine ⟨blk, ?_, .refl blk⟩
  simp only [Builder.addBlock]
  rw [List.getElem?_append_left (List.getElem?_eq_some_iff.mp hblk).1, hblk]

/-! ### What the function holds -/

/-- A block is the current one or was there before. -/
theorem At.mem_modifyCurrent {b : Builder} {i : Nat} {blk blk' : Block} (h : b.At i blk)
    {f : Block → Block} (hmem : blk' ∈ (b.modifyCurrent f).function.blocks) :
    blk' = f blk ∨ blk' ∈ b.function.blocks := by
  obtain ⟨pre, post, hblocks, hmodify⟩ := h.split
  rw [hmodify, List.mem_append, List.mem_cons] at hmem
  rw [hblocks, List.mem_append, List.mem_cons]
  tauto

theorem Open.instructions_append {b : Builder} (h : b.Open) (code : List Instr) :
    (b.append code).function.instructions.Perm (b.function.instructions ++ code) := by
  obtain ⟨i, blk, hat, -⟩ := h
  obtain ⟨pre, post, hblocks, hmodify⟩ := hat.split
  simp only [Function.instructions, Builder.append, hblocks, hmodify, List.flatMap_append,
    List.flatMap_cons, List.append_assoc]
  -- The new code stands in front of the blocks behind the current one.
  refine List.Perm.append_left _ (List.Perm.append_left _ ?_)
  exact List.perm_append_comm

theorem Open.instructions_close {b : Builder} (h : b.Open) (t : Terminator) :
    (b.close t).function.instructions = b.function.instructions := by
  obtain ⟨i, blk, hat, -⟩ := h
  obtain ⟨pre, post, hblocks, hmodify⟩ := hat.split
  simp only [Function.instructions, close, hblocks, hmodify, List.flatMap_append,
    List.flatMap_cons]

@[simp] theorem instructions_addBlock (b : Builder) (base : String) :
    (b.addBlock base).function.instructions = b.function.instructions := by
  simp [addBlock, Function.instructions]

theorem blockNames_modifyCurrent (b : Builder) {f : Block → Block}
    (hname : ∀ blk, (f blk).name = blk.name) :
    (b.modifyCurrent f).function.blockNames = b.function.blockNames := by
  apply List.ext_getElem?
  intro j
  unfold modifyCurrent
  split
  next block _ =>
    by_cases hj : block.index = j
    · subst hj
      simp [Function.blockNames, Function.comp_def, hname]
    · simp [Function.blockNames, List.getElem?_modify_ne _ _ hj]
  next => rfl

@[simp] theorem blockNames_append (b : Builder) (code : List Instr) :
    (b.append code).function.blockNames = b.function.blockNames :=
  b.blockNames_modifyCurrent fun _ => rfl

@[simp] theorem blockNames_close (b : Builder) (t : Terminator) :
    (b.close t).function.blockNames = b.function.blockNames :=
  b.blockNames_modifyCurrent fun _ => rfl

@[simp] theorem blockNames_addBlock (b : Builder) (base : String) :
    (b.addBlock base).function.blockNames = b.function.blockNames ++ [(b.names.fresh base).1] := by
  simp [addBlock, Function.blockNames]

theorem mem_blockNames {b : Builder} {j : Nat} {blk : Block}
    (h : b.function.blocks[j]? = some blk) : blk.name ∈ b.function.blockNames :=
  List.mem_map_of_mem (List.mem_of_getElem? h)

/-! ### Blocks to be filled -/

/-- An open block that is not the current one. -/
structure Pending (b : Builder) (j : Nat) (blk : Block) : Prop where
  block : b.function.blocks[j]? = some blk
  opened : blk.terminator = none
  not_current : b.current ≠ some ⟨j⟩

theorem Pending.lt {b : Builder} {j : Nat} {blk : Block} (h : b.Pending j blk) :
    j < b.function.blocks.length :=
  (List.getElem?_eq_some_iff.mp h.block).1

theorem Pending.at_moveTo {b : Builder} {j : Nat} {blk : Block} (h : b.Pending j blk) :
    (b.moveTo j).At j blk :=
  ⟨rfl, h.block⟩

/-- What is done to the current block leaves the others. -/
theorem At.pending_modifyCurrent {b : Builder} {i : Nat} {blk : Block} (h : b.At i blk)
    (f : Block → Block) (j : Nat) (blk' : Block) :
    (b.modifyCurrent f).Pending j blk' ↔ b.Pending j blk' := by
  constructor
  · intro hpending
    have hcurrent : b.current ≠ some ⟨j⟩ := by simpa using hpending.not_current
    have hji : j ≠ i := by
      rintro rfl
      exact hcurrent h.current
    have hblock := hpending.block
    rw [h.modifyCurrent_blocks, if_neg hji] at hblock
    exact ⟨hblock, hpending.opened, hcurrent⟩
  · intro hpending
    have hji : j ≠ i := by
      rintro rfl
      exact hpending.not_current h.current
    refine ⟨?_, hpending.opened, by simpa using hpending.not_current⟩
    rw [h.modifyCurrent_blocks, if_neg hji]
    exact hpending.block

theorem Open.pending_append {b : Builder} (h : b.Open) (code : List Instr) (j : Nat)
    (blk : Block) : (b.append code).Pending j blk ↔ b.Pending j blk := by
  obtain ⟨i, cur, hat, -⟩ := h
  exact hat.pending_modifyCurrent _ j blk

/-- Names and registers given out do not matter to what is pending. -/
theorem pending_congr {b b' : Builder} (hfunction : b.function = b'.function)
    (hcurrent : b.current = b'.current) (j : Nat) (blk : Block) :
    b.Pending j blk ↔ b'.Pending j blk := by
  constructor
  · intro h
    exact ⟨hfunction ▸ h.block, h.opened, hcurrent ▸ h.not_current⟩
  · intro h
    exact ⟨hfunction ▸ h.block, h.opened, hcurrent ▸ h.not_current⟩

theorem Open.pending_compute {b : Builder} (h : b.Open) (code : List Instr) (j : Nat)
    (blk : Block) : (b.compute code).Pending j blk ↔ b.Pending j blk := by
  rw [← h.pending_append code j blk]
  apply pending_congr
  · rfl
  · rfl

theorem Open.pending_allocate {b : Builder} (h : b.Open) (base : String) (ty : Ty) (j : Nat)
    (blk : Block) : (b.allocate base ty).Pending j blk ↔ b.Pending j blk := by
  rw [← h.pending_append [.alloca (b.nextSlot base ty)] j blk]
  apply pending_congr
  · rfl
  · rfl

theorem pending_addBlock {b : Builder} (h : b.current ≠ some ⟨b.function.blocks.length⟩)
    (base : String) (j : Nat) (blk : Block) :
    (b.addBlock base).Pending j blk ↔
      b.Pending j blk ∨
        j = b.function.blocks.length ∧ blk = ⟨(b.names.fresh base).1, [], none⟩ := by
  constructor
  · intro hpending
    have hblock := hpending.block
    simp only [addBlock] at hblock
    -- An old block, the new one, or none at all.
    rcases Nat.lt_trichotomy j b.function.blocks.length with hj | rfl | hj
    · rw [List.getElem?_append_left hj] at hblock
      exact .inl ⟨hblock, hpending.opened, hpending.not_current⟩
    · simp only [List.getElem?_concat_length, Option.some.injEq] at hblock
      exact .inr ⟨rfl, hblock.symm⟩
    · rw [List.getElem?_eq_none (by simp; omega)] at hblock
      cases hblock
  · rintro (hpending | ⟨rfl, rfl⟩)
    · refine ⟨?_, hpending.opened, hpending.not_current⟩
      simp only [addBlock]
      rw [List.getElem?_append_left hpending.lt, hpending.block]
    · exact ⟨by simp [addBlock], rfl, h⟩

/-- The cursor moves to a pending block when the current one is finished. -/
theorem pending_moveTo {b : Builder} (h : ∀ i blk, b.At i blk → blk.terminator ≠ none)
    (j k : Nat) (blk : Block) : (b.moveTo j).Pending k blk ↔ b.Pending k blk ∧ k ≠ j := by
  constructor
  · intro hpending
    have hkj : k ≠ j := by
      rintro rfl
      exact hpending.not_current rfl
    exact ⟨⟨hpending.block, hpending.opened, fun hcurrent =>
      h k blk ⟨hcurrent, hpending.block⟩ hpending.opened⟩, hkj⟩
  · rintro ⟨hpending, hkj⟩
    refine ⟨hpending.block, hpending.opened, fun hcurrent => hkj ?_⟩
    exact (BlockId.mk.inj (Option.some.inj hcurrent)).symm

theorem Open.pending_close_moveTo {b : Builder} (h : b.Open) (t : Terminator) (j k : Nat)
    (blk : Block) : ((b.close t).moveTo j).Pending k blk ↔ b.Pending k blk ∧ k ≠ j := by
  obtain ⟨i, cur, hat, -⟩ := h
  rw [pending_moveTo, close, hat.pending_modifyCurrent]
  intro i' blk' hat'
  obtain ⟨-, rfl⟩ := hat'.unique (hat.close t)
  simp

end Builder

/-! ## The operations of `BuildM` -/

namespace BuildM

variable {b : Builder}

theorem emit_open (h : b.Open) (instr : Instr) : emit instr b = .ok () (b.append [instr]) := by
  simp only [emit_apply, h.refusal?, Builder.append]

theorem terminate_open (h : b.Open) (t : Terminator) : terminate t b = .ok () (b.close t) := by
  simp only [terminate_apply, h.refusal?, Builder.close]

/-- Every instruction with a result is emitted in this way. -/
theorem define_open (h : b.Open) (ty : Ty) (instr : Reg → Instr) :
    (do
      let dest ← freshReg ty
      emit (instr dest)
      return Value.reg dest : BuildM Value) b =
      .ok (.reg (b.nextReg ty)) (b.compute [instr (b.nextReg ty)]) := by
  -- The register is taken before the block is looked at, which does not change the block.
  have hopen : Builder.Open { b with temporaries := b.temporaries + 1 } := by
    obtain ⟨i, blk, hat, hblk⟩ := h
    exact ⟨i, blk, ⟨hat.current, hat.block⟩, hblk⟩
  simp only [bind, EStateM.bind, freshReg_apply, emit_open hopen, pure, EStateM.pure]
  simp only [Builder.append, Builder.modifyCurrent, Builder.compute, Builder.nextReg, regName]
  split <;> rfl

theorem load_open (h : b.Open) (src : Slot) :
    load src b = .ok (.reg (b.nextReg src.ty)) (b.compute [.load (b.nextReg src.ty) src]) :=
  define_open h src.ty fun dest => .load dest src

theorem binary_open (h : b.Open) (op : Opcode) (lhs rhs : Value) :
    binary op lhs rhs b =
      .ok (.reg (b.nextReg lhs.ty)) (b.compute [.binary (b.nextReg lhs.ty) op lhs rhs]) :=
  define_open h lhs.ty fun dest => .binary dest op lhs rhs

theorem icmp_open (h : b.Open) (pred : IntPredicate) (lhs rhs : Value) :
    icmp pred lhs rhs b =
      .ok (.reg (b.nextReg .i1)) (b.compute [.icmp (b.nextReg .i1) pred lhs rhs]) :=
  define_open h .i1 fun dest => .icmp dest pred lhs rhs

theorem fcmp_open (h : b.Open) (pred : FloatPredicate) (lhs rhs : Value) :
    fcmp pred lhs rhs b =
      .ok (.reg (b.nextReg .i1)) (b.compute [.fcmp (b.nextReg .i1) pred lhs rhs]) :=
  define_open h .i1 fun dest => .fcmp dest pred lhs rhs

theorem cast_open (h : b.Open) (op : CastOp) (value : Value) (ty : Ty) :
    cast op value ty b = .ok (.reg (b.nextReg ty)) (b.compute [.cast (b.nextReg ty) op value]) :=
  define_open h ty fun dest => .cast dest op value

theorem store_open (h : b.Open) (value : Value) (dest : Slot) :
    store value dest b = .ok () (b.append [.store value dest]) :=
  emit_open h _

theorem alloca_open (h : b.Open) (base : String) (ty : Ty) :
    alloca base ty b = .ok (b.nextSlot base ty) (b.allocate base ty) := by
  -- The block is checked before the name is taken, and emission checks it again.
  have hopen : Builder.Open { b with names := (b.names.fresh base).2 } := by
    obtain ⟨i, blk, hat, hblk⟩ := h
    exact ⟨i, blk, ⟨hat.current, hat.block⟩, hblk⟩
  simp only [alloca, bind, EStateM.bind, checkOpen_apply, h.refusal?, freshName_apply,
    emit_open hopen, pure, EStateM.pure]
  simp only [Builder.append, Builder.modifyCurrent, Builder.allocate, Builder.nextSlot]
  split <;> rfl

theorem branch_open (h : b.Open) {block : BlockId} {name : String}
    (hname : b.blockName? block = some name) : branch block b = .ok () (b.close (.br name)) := by
  simp only [branch, bind, EStateM.bind, target_apply, hname, terminate_open h]

theorem condBranch_open (h : b.Open) (cond : Value) {thenBlock elseBlock : BlockId}
    {thenName elseName : String} (hthen : b.blockName? thenBlock = some thenName)
    (helse : b.blockName? elseBlock = some elseName) :
    condBranch cond thenBlock elseBlock b = .ok () (b.close (.condBr cond thenName elseName)) := by
  simp only [condBranch, bind, EStateM.bind, target_apply, hthen, helse, terminate_open h]

theorem fallInto_open (h : b.Open) {block : BlockId} {name : String}
    (hname : b.blockName? block = some name) : fallInto block b = .ok () (b.close (.br name)) := by
  have hsealed : BuildM.isSealed b = .ok false b := by
    change EStateM.Result.ok b.isSealed b = _
    rw [h.isSealed]
  simp only [fallInto, bind, EStateM.bind, hsealed, branch_open h hname, Bool.false_eq_true,
    if_false]

end BuildM

end TinyC.Ir
