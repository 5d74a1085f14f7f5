import TinyC.Proofs.Ir.Naming
import TinyC.Proofs.Lowering.Moves

/-!
# Invariants of lowering

What every state holds that lowering reaches: names are used once, registers are numbered in the
order they are made, every variable has one slot of its type, and every block is well typed and
leads to blocks that are there. Each of them is shown for one move.
-/

namespace TinyC

open Ir

theorem SymbolTable.mem_entries {t : SymbolTable} {name : String} {symbol : Symbol}
    (h : t.lookup? name = some symbol) : (name, symbol) ∈ t.entries := by
  obtain ⟨pre, post, hentries, -⟩ := List.lookup_eq_some_iff.mp h
  rw [hentries]
  exact List.mem_append_right _ (List.mem_cons_self ..)

namespace Lowering

structure Invariant (σ : Lowering) : Prop where
  ret : σ.builder.function.ret = .i32
  names : σ.builder.function.usedNames.Nodup
  known : σ.builder.function.usedNames ⊆ σ.builder.names.names
  registers : (σ.builder.function.defined.map Reg.name).Perm
    ((List.range' 1 σ.builder.temporaries).map regName)
  slots : σ.builder.function.slots.Perm (σ.symbols.entries.map (·.2.slot))
  typed : ∀ entry ∈ σ.symbols.entries, entry.2.slot.ty = entry.2.ty.slotTy
  blocks : σ.builder.Sound σ.HasSlot σ.builder.temporaries

theorem Invariant.named {σ : Lowering} (hσ : σ.Invariant) : σ.builder.Named :=
  ⟨hσ.names, hσ.known, hσ.registers.subperm⟩

/-! ## One move -/

namespace Move

variable {σ σ' : Lowering}

/-- A move makes no slot, or that of the variable it declares. -/
theorem slots (h : Move σ σ') :
    (σ'.builder.function.slots.Perm σ.builder.function.slots ∧ σ'.symbols = σ.symbols) ∨
    ∃ name ty, σ'.builder.function.slots.Perm
        (σ.builder.function.slots ++ [σ.builder.nextSlot name (Ty.slotTy ty)]) ∧
      σ'.symbols = σ.symbols.insert name ⟨σ.builder.nextSlot name ty.slotTy, ty⟩ := by
  cases h with
  | @compute code hopen hcode =>
    have hslots := Builder.Open.slots_append hopen code
    rw [hcode.made, List.append_nil] at hslots
    exact .inl ⟨hslots, rfl⟩
  | @store v slot hopen =>
    have hslots := Builder.Open.slots_append hopen [.store v slot]
    rw [show [Instr.store v slot].filterMap Instr.made? = [] from rfl, List.append_nil] at hslots
    exact .inl ⟨hslots, rfl⟩
  | @declare name ty hopen =>
    exact .inr ⟨name, ty, Builder.Open.slots_append hopen _, rfl⟩
  | @addBlock base =>
    refine .inl ⟨List.Perm.of_eq ?_, rfl⟩
    exact congrArg (List.filterMap Instr.made?) (σ.builder.instructions_addBlock base)
  | @close t hopen => exact .inl ⟨.of_eq (Builder.Open.slots_close hopen t), rfl⟩
  | moveTo => exact .inl ⟨.rfl, rfl⟩

/-- A move makes the next registers. -/
theorem defined (h : Move σ σ') :
    ∃ n, σ'.builder.temporaries = σ.builder.temporaries + n ∧
      (σ'.builder.function.defined.map Reg.name).Perm (σ.builder.function.defined.map Reg.name ++
        (List.range' (σ.builder.temporaries + 1) n).map regName) := by
  cases h with
  | @compute code hopen hcode =>
    refine ⟨code.length, rfl, ?_⟩
    rw [← hcode.defined, ← List.map_append]
    exact (Builder.Open.defined_append hopen code).map _
  | @store v slot hopen =>
    refine ⟨0, Builder.modifyCurrent_temporaries _ _, ?_⟩
    have hdefined := (Builder.Open.defined_append hopen [.store v slot]).map Reg.name
    rwa [List.map_append] at hdefined
  | @declare name ty hopen =>
    refine ⟨0, Builder.modifyCurrent_temporaries _ _, ?_⟩
    have hdefined := (Builder.Open.defined_append hopen
      [.alloca (σ.builder.nextSlot name ty.slotTy)]).map Reg.name
    rwa [List.map_append] at hdefined
  | @addBlock base =>
    refine ⟨0, rfl, List.Perm.of_eq ?_⟩
    have hdefined : (σ.builder.addBlock base).function.defined = σ.builder.function.defined :=
      congrArg (List.filterMap Instr.dest?) (σ.builder.instructions_addBlock base)
    simp [Lowering.addBlock, hdefined]
  | @close t hopen =>
    refine ⟨0, Builder.modifyCurrent_temporaries _ _, List.Perm.of_eq ?_⟩
    simp [Lowering.close, Builder.Open.defined_close hopen t]
  | moveTo => exact ⟨0, rfl, by simp [Lowering.moveTo, Builder.moveTo]⟩

theorem blocks (h : Move σ σ') (hσ : σ.builder.Sound σ.HasSlot σ.builder.temporaries) :
    σ'.builder.Sound σ'.HasSlot σ'.builder.temporaries := by
  have hslots : ∀ s, σ.HasSlot s → σ'.HasSlot s := fun s hs => hs.mono h.symbols_le
  cases h with
  | @compute code hopen hcode =>
    refine hσ.append hopen hslots (Nat.le_add_right _ _) fun j i hi => ?_
    -- The registers that the code itself gives out are counted at the end of it.
    have hj := (List.getElem?_eq_some_iff.mp hi).1
    exact (hcode.fits hi).mono hslots (Nat.add_le_add_left hj.le _)
  | @store v slot hopen hfits =>
    have htemporaries : (σ.store v slot).builder.temporaries = σ.builder.temporaries :=
      Builder.modifyCurrent_temporaries _ _
    rw [htemporaries]
    exact hσ.append_singleton hopen hslots hfits
  | @declare name ty hopen =>
    have htemporaries : (σ.declare name ty).builder.temporaries = σ.builder.temporaries :=
      Builder.modifyCurrent_temporaries _ _
    rw [htemporaries]
    exact hσ.append_singleton hopen hslots
      ⟨trivial, by simp [Instr.operands], by simp [Instr.slot?]⟩
  | @addBlock base => exact hσ.addBlock base
  | @close t hopen ht =>
    have htemporaries : (σ.close t).builder.temporaries = σ.builder.temporaries :=
      Builder.modifyCurrent_temporaries _ _
    rw [htemporaries]
    exact hσ.close hopen ht
  | moveTo => exact hσ

theorem names (h : Move σ σ') (hσ : σ.Invariant) :
    σ'.builder.function.usedNames.Nodup ∧
      σ'.builder.function.usedNames ⊆ σ'.builder.names.names := by
  have hnamed := h.reach_builder.named hσ.named
  exact ⟨hnamed.distinct, hnamed.known⟩

theorem registers (h : Move σ σ') (hσ : σ.Invariant) :
    (σ'.builder.function.defined.map Reg.name).Perm
      ((List.range' 1 σ'.builder.temporaries).map regName) := by
  obtain ⟨n, htemporaries, hdefined⟩ := h.defined
  have hrange : List.range' 1 (σ.builder.temporaries + n) =
      List.range' 1 σ.builder.temporaries ++ List.range' (σ.builder.temporaries + 1) n := by
    rw [← List.range'_append_1, Nat.add_comm 1]
  rw [htemporaries, hrange, List.map_append]
  exact hdefined.trans (hσ.registers.append_right _)

theorem declarations (h : Move σ σ') (hσ : σ.Invariant) :
    σ'.builder.function.slots.Perm (σ'.symbols.entries.map (·.2.slot)) ∧
      ∀ entry ∈ σ'.symbols.entries, entry.2.slot.ty = entry.2.ty.slotTy := by
  rcases h.slots with ⟨hslots, hsymbols⟩ | ⟨name, ty, hslots, hsymbols⟩
  · rw [hsymbols]
    exact ⟨hslots.trans hσ.slots, hσ.typed⟩
  · rw [hsymbols]
    refine ⟨?_, List.forall_mem_cons.mpr ⟨rfl, hσ.typed⟩⟩
    exact (hslots.trans (List.perm_append_singleton _ _)).trans (hσ.slots.cons _)

theorem ret (h : Move σ σ') : σ'.builder.function.ret = σ.builder.function.ret := by
  cases h with
  | compute | store | declare | close => exact Builder.modifyCurrent_ret _ _
  | addBlock | moveTo => rfl

theorem invariant (h : Move σ σ') (hσ : σ.Invariant) : σ'.Invariant where
  ret := h.ret.trans hσ.ret
  names := (h.names hσ).1
  known := (h.names hσ).2
  registers := h.registers hσ
  slots := (h.declarations hσ).1
  typed := (h.declarations hσ).2
  blocks := h.blocks hσ.blocks

end Move

/-! ## All states -/

theorem Invariant.new (name : String) : (Lowering.new name).Invariant where
  ret := rfl
  names := List.nodup_nil
  known := List.nil_subset _
  registers := .rfl
  slots := .rfl
  typed := nofun
  blocks := nofun

theorem Invariant.of_reach {σ σ' : Lowering} (hσ : σ.Invariant) (h : Reach σ σ') : σ'.Invariant :=
  h.preserves Move.invariant hσ

theorem Reach.invariant {name : String} {σ : Lowering} (h : Reach (.new name) σ) : σ.Invariant :=
  (Invariant.new name).of_reach h

namespace Invariant

variable {σ : Lowering}

/-- A register at hand is made once. -/
theorem provides (hσ : σ.Invariant) {v : Value} {before : List Instr} {k : Nat}
    (hv : v.Live before k) (hbefore : before ⊆ σ.builder.function.instructions) :
    σ.builder.function.Provides v := by
  intro r hr
  -- It is made by an instruction before it is read, and no number is given out twice.
  obtain ⟨⟨i, hi, hdest⟩, -⟩ := hv.made r hr
  have hmem : r ∈ σ.builder.function.defined := List.mem_filterMap.mpr ⟨i, hbefore hi, hdest⟩
  have hnodup := hσ.named.nodup_registers
  exact ⟨hmem, fun r' hr' hname => List.inj_on_of_nodup_map hnodup hr' hmem hname⟩

theorem nodup_slots (hσ : σ.Invariant) : (σ.builder.function.slots.map Slot.name).Nodup :=
  (List.nodup_append.mp hσ.names).2.1

/-- The slot of a variable is made once. -/
theorem owns (hσ : σ.Invariant) {s : Slot} (hs : σ.HasSlot s) :
    s ∈ σ.builder.function.slots ∧
      ∀ s' ∈ σ.builder.function.slots, s'.name = s.name → s' = s := by
  obtain ⟨name, symbol, hname, rfl⟩ := hs
  have hmem : symbol.slot ∈ σ.builder.function.slots := by
    rw [hσ.slots.mem_iff]
    exact List.mem_map_of_mem (SymbolTable.mem_entries hname)
  exact ⟨hmem, fun s' hs' hs => List.inj_on_of_nodup_map hσ.nodup_slots hs' hmem hs⟩

/-- Two variables do not share a slot. -/
theorem slot_injective (hσ : σ.Invariant) {x y : String} {a b : Symbol}
    (hx : σ.symbols.lookup? x = some a) (hy : σ.symbols.lookup? y = some b)
    (hname : a.slot.name = b.slot.name) : x = y := by
  have hnodup : (σ.symbols.entries.map fun entry => entry.2.slot.name).Nodup := by
    have hslots := (hσ.slots.map Slot.name).nodup_iff.mp hσ.nodup_slots
    rwa [List.map_map] at hslots
  have heq := List.inj_on_of_nodup_map hnodup (SymbolTable.mem_entries hx)
    (SymbolTable.mem_entries hy) hname
  exact congrArg Prod.fst heq

end Invariant

end Lowering

end TinyC
