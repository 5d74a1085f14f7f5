import TinyC.Proofs.Lowering.Program
import TinyC.Proofs.Program.Declared

/-!
# Static single assignment

A compiled function has one flat space of names, in which blocks, slots and registers do not get
in each other's way. Blocks and slots take their names from one table, and only plain ones:
keywords with a point inside, and words. Registers have names that start with a point. They are
numbered in the order they are made, and used in the block that makes them.
-/

namespace TinyC

open Ir

/-- All names are different, registers are numbered without gaps, and every register is read behind
the instruction that makes it, in the same block. -/
structure Ir.Function.SingleAssignment (f : Function) : Prop where
  names : (f.blockNames ++ f.slots.map Slot.name ++ f.defined.map Reg.name).Nodup
  registers : ∃ n, (f.defined.map Reg.name).Perm ((List.range' 1 n).map regName)
  operands : ∀ b ∈ f.blocks, ∀ (j : Nat) (i : Instr), b.instrs[j]? = some i → ∀ v ∈ i.operands,
    ∀ r, v = .reg r → ∃ i' ∈ b.instrs.take j, i'.dest? = some r
  tested : ∀ b ∈ f.blocks, ∀ t ∈ b.terminator, ∀ v ∈ t.operands,
    ∀ r, v = .reg r → ∃ i ∈ b.instrs, i.dest? = some r

namespace Lowering

/-! ## Plain names -/

/-- Blocks have plain names, and so have the slots of variables with plain names. -/
structure PlainlyNamed (σ : Lowering) : Prop where
  blocks : ∀ name ∈ σ.builder.function.blockNames, Plain name
  slots : ∀ entry ∈ σ.symbols.entries, Plain entry.1 → Plain entry.2.slot.name

theorem Move.plainlyNamed {σ σ' : Lowering} (h : Move σ σ') (hσ : σ.PlainlyNamed) :
    σ'.PlainlyNamed := by
  obtain ⟨hblocks, hslots⟩ := hσ
  cases h with
  | compute | store =>
    refine ⟨?_, hslots⟩
    simpa [Lowering.compute, Lowering.store, Builder.compute] using hblocks
  | @declare name ty =>
    refine ⟨?_, List.forall_mem_cons.mpr ⟨fun hname => ?_, hslots⟩⟩
    · simpa [Lowering.declare, Builder.allocate] using hblocks
    · exact σ.builder.names.plain_fresh hname
  | @addBlock base hbase =>
    refine ⟨?_, hslots⟩
    rw [Lowering.addBlock, Builder.blockNames_addBlock, List.forall_mem_append]
    exact ⟨hblocks, by simpa using σ.builder.names.plain_fresh hbase⟩
  | close =>
    refine ⟨?_, hslots⟩
    simpa [Lowering.close] using hblocks
  | moveTo => exact ⟨hblocks, hslots⟩

theorem Reach.plainlyNamed {name : String} {σ : Lowering} (h : Reach (.new name) σ) :
    σ.PlainlyNamed :=
  h.preserves Move.plainlyNamed ⟨nofun, nofun⟩

namespace Done

variable {name : String} {σ : Lowering}

theorem plain_usedNames (h : Done name σ) (hnames : ∀ entry ∈ σ.scope, Plain entry.1) :
    ∀ name ∈ σ.builder.function.usedNames, Plain name := by
  refine List.forall_mem_append.mpr ⟨h.reach_new.plainlyNamed.blocks, ?_⟩
  intro x hx
  obtain ⟨slot, hslot, rfl⟩ := List.mem_map.mp hx
  obtain ⟨entry, hentry, rfl⟩ := List.mem_map.mp (h.invariant.slots.mem_iff.mp hslot)
  exact h.reach_new.plainlyNamed.slots entry hentry (hnames _ (List.mem_map_of_mem hentry))

/-- The last block is closed, and nothing else changes. -/
theorem exists_block (h : Done name σ) {blk : Block}
    (hblk : blk ∈ σ.return0.builder.function.blocks) :
    ∃ cur ∈ σ.builder.function.blocks, blk.instrs = cur.instrs ∧
      ∀ t ∈ blk.terminator, t ∈ cur.terminator ∨ t = .ret (some (.int 0)) := by
  rcases h.mem_blocks hblk with ⟨cur, hcur, rfl⟩ | ⟨hmem, -⟩
  · refine ⟨cur, hcur, rfl, fun t ht => .inr ?_⟩
    cases ht
    rfl
  · exact ⟨blk, hmem, rfl, fun t ht => .inl ht⟩

theorem singleAssignment (h : Done name σ) (hnames : ∀ entry ∈ σ.scope, Plain entry.1) :
    σ.return0.builder.function.SingleAssignment where
  names := by
    rw [return0, Lowering.close, Builder.blockNames_close, Builder.Open.slots_close h.opened,
      Builder.Open.defined_close h.opened]
    have hnamed := h.invariant.named
    refine List.nodup_append.mpr ⟨hnamed.distinct, hnamed.nodup_registers, ?_⟩
    -- A register is not plain, and everything else is.
    intro x hx y hy
    obtain ⟨n, -, rfl⟩ := hnamed.exists_number hy
    rintro rfl
    exact not_plain_regName n (h.plain_usedNames hnames _ hx)
  registers := by
    rw [return0, Lowering.close, Builder.Open.defined_close h.opened]
    exact ⟨_, h.invariant.registers⟩
  operands := by
    intro blk hblk j i hi v hv r hr
    obtain ⟨cur, hcur, hinstrs, -⟩ := h.exists_block hblk
    rw [hinstrs] at hi ⊢
    exact ((((h.invariant.blocks cur hcur).instrs j i hi).operands v hv).made r hr).1
  tested := by
    intro blk hblk t ht v hv r hr
    obtain ⟨cur, hcur, hinstrs, hterminator⟩ := h.exists_block hblk
    rw [hinstrs]
    rcases hterminator t ht with ht | rfl
    · exact ((((h.invariant.blocks cur hcur).terminator t ht).operands v hv).made r hr).1
    · subst hr
      simp [Terminator.operands] at hv

end Done

end Lowering

/-! ## Compiled functions -/

theorem compile_eq_ok {source : String} {c : Compilation} (h : compile source = .ok c) :
    ∃ parsed, parse source = .ok parsed ∧ parsed.program.toModule = .ok c.module := by
  simp only [compile, bind, Except.bind] at h
  split at h
  · cases h
  · split at h
    · cases h
    · cases h
      exact ⟨_, ‹_›, ‹_›⟩

/-- Every compiled function is in static single assignment form. -/
theorem compile_singleAssignment {source : String} {c : Compilation}
    (h : compile source = .ok c) : ∃ f, c.module.functions = [f] ∧ f.SingleAssignment := by
  obtain ⟨parsed, hparse, hmodule⟩ := compile_eq_ok h
  rcases parsed.program.lower_cases with ⟨σ, hcheck, -, hdone, hok, -⟩ | ⟨e, τ, -, -, herror⟩
  · have hfunctions := congrArg Ir.Module.functions (Except.ok.inj (hok.symm.trans hmodule))
    refine ⟨_, hfunctions.symm, hdone.singleAssignment fun entry hentry => ?_⟩
    exact (parse_isWord hparse hcheck hentry).plain
  · cases herror.symm.trans hmodule

/-- A variable that is called like the first block, and two loops whose blocks are called alike. -/
theorem entry_singleAssignment :
    ∃ c, compile "int main() { int entry; while (entry) entry = entry - 1; while (entry) ; }" =
        .ok c ∧
      ∃ f, c.module.functions = [f] ∧ f.SingleAssignment := by
  generalize hsource :
    "int main() { int entry; while (entry) entry = entry - 1; while (entry) ; }" = source
  have hok : (compile source).isOk := by
    rw [← hsource]
    decide +kernel
  cases h : compile source with
  | error e =>
    rw [h] at hok
    cases hok
  | ok c => exact ⟨c, rfl, compile_singleAssignment h⟩

end TinyC
