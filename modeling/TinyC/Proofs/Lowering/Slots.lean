import TinyC.Proofs.Lowering.Invariants
import TinyC.Proofs.Lowering.Journal

/-!
# Variables and slots

A slot is named after its variable, but the builder has the last word: it changes a name that a
block or another slot has already. So names of variables and names of slots are different things,
and that each variable has a slot of its own is an invariant of the symbol table, the code and the
name table together. Every step of lowering keeps it, whether it succeeds or fails.

Main statement: whenever the lowering of a declaration, an assignment, an expression or a statement
starts or ends, the variables and the slots made so far correspond one to one.
-/

namespace TinyC

open Ir LowerM BuildM

/-! ## Slots that operations make -/

section

variable {b b' : Builder}

/-- Only a move that asks for a name can make a slot. -/
theorem Ir.Builder.Move.slots_perm (h : b.Move ∅ b') :
    b'.function.slots.Perm b.function.slots := by
  cases h with
  | addBlock hbase | allocate ty hopen hbase => cases hbase
  | moveTo | skipReg => exact .rfl
  | store v slot hopen =>
    have hslots := hopen.slots_append [.store v slot]
    rwa [List.filterMap_cons_none rfl, List.filterMap_nil, List.append_nil] at hslots
  | @compute i ty hopen hdest =>
    have hslots := hopen.slots_append [i]
    rwa [List.filterMap_cons_none (Instr.made?_eq_none hdest), List.filterMap_nil,
      List.append_nil] at hslots
  | close hopen => exact .of_eq (hopen.slots_close _)

theorem Ir.Builder.Reach.slots_perm (h : b.Reach ∅ b') :
    b'.function.slots.Perm b.function.slots :=
  h.preserves (I := fun b' => b'.function.slots.Perm b.function.slots)
    (fun hmove hslots => hmove.slots_perm.trans hslots) .rfl

end

/-! ## Symbol tables without repetition -/

namespace SymbolTable

variable {t : SymbolTable} {name : String}

theorem not_mem_keys (h : t.lookup? name = none) : name ∉ t.entries.map Prod.fst := by
  intro hmem
  obtain ⟨entry, hentry, rfl⟩ := List.mem_map.mp hmem
  simpa using List.lookup_eq_none_iff.mp h entry hentry

theorem lookup?_of_mem {symbol : Symbol} (hkeys : (t.entries.map Prod.fst).Nodup)
    (h : (name, symbol) ∈ t.entries) : t.lookup? name = some symbol := by
  obtain ⟨before, behind, hentries⟩ := List.append_of_mem h
  refine List.lookup_eq_some_iff.mpr ⟨before, behind, hentries, fun entry hentry => ?_⟩
  rw [hentries, List.map_append, List.nodup_append] at hkeys
  simpa using (hkeys.2.2 entry.1 (List.mem_map_of_mem hentry) name (by simp)).symm

end SymbolTable

/-- A declaration that fails leaves no trace: a slot that is refused uses up no name. -/
theorem LowerM.after_declare (name : String) (ty : Ty) (σ : Lowering) :
    after (declare name ty) σ = σ ∨
      σ.Open ∧ σ.symbols.lookup? name = none ∧ after (declare name ty) σ = σ.declare name ty := by
  cases hname : σ.symbols.lookup? name with
  | some existing => exact .inl (after_error (declare_taken hname ty))
  | none =>
    cases hrefusal : σ.builder.refusal? with
    | some e => exact .inl (after_error (declare_refused hname hrefusal ty))
    | none =>
      have hopen := Builder.open_of_refusal? hrefusal
      exact .inr ⟨hopen, rfl, after_ok (declare_open hopen hname ty)⟩

/-! ## Variables that stay -/

/-- No step of lowering takes a variable out of the table or gives it another slot. -/
theorem Lowering.stable_lookup? (name : String) (symbol : Symbol) :
    Stable fun σ => σ.symbols.lookup? name = some symbol where
  stack hσ _ := hσ
  call hx σ hσ := by rwa [after_lift]
  appendBlock base σ hσ := by rwa [after_lift]
  declare name' ty σ hσ := by
    rcases after_declare name' ty σ with h | ⟨-, hnone, h⟩
    · rwa [h]
    · rw [h]
      exact SymbolTable.le_insert hnone _ name symbol hσ

/-- A declaration that succeeds leaves its variable in the table. -/
theorem Decl.lookup?_of_lower (d : Decl) {σ σ' : Lowering} (h : d.lower σ = .ok () σ') :
    σ'.symbols.lookup? d.name = some ⟨σ.builder.nextSlot d.name d.ty.slotTy, d.ty⟩ := by
  obtain ⟨slot, _, hdeclare, h⟩ := exists_of_bind_eq_ok h
  obtain ⟨-, -, rfl⟩ := declare_eq_ok hdeclare
  have hdeclared := σ.lookup?_declare d.name d.ty
  cases hinit : d.initial with
  | none =>
    rw [hinit] at h
    cases h
    exact hdeclared
  | some e =>
    rw [hinit] at h
    have hstable := Lowering.stable_lookup? d.name ⟨σ.builder.nextSlot d.name d.ty.slotTy, d.ty⟩
    have hkept := (e.observeInto_observes hstable slot).keeps _ hdeclared
    rwa [after_ok h] at hkept

/-! ## The invariant -/

namespace Lowering

/-- The slots in the code are those of the table, and no two of them are called alike. -/
structure Aligned (σ : Lowering) : Prop where
  named : σ.builder.Named
  slots : σ.builder.function.slots.Perm (σ.symbols.entries.map (·.2.slot))
  typed : ∀ entry ∈ σ.symbols.entries, entry.2.slot.ty = entry.2.ty.slotTy
  keys : (σ.symbols.entries.map Prod.fst).Nodup

namespace Aligned

variable {σ : Lowering}

theorem new (name : String) : (Lowering.new name).Aligned where
  named := .new name .i32
  slots := .rfl
  typed := List.forall_mem_nil _
  keys := List.nodup_nil

/-- The builder does something without making a slot. -/
theorem build (hσ : σ.Aligned) {names : Set String} {b : Builder} (hreach : σ.builder.Reach names b)
    (hslots : b.function.slots.Perm σ.builder.function.slots) :
    { σ with builder := b }.Aligned where
  named := hreach.named hσ.named
  slots := hslots.trans hσ.slots
  typed := hσ.typed
  keys := hσ.keys

theorem declare (hσ : σ.Aligned) (hopen : σ.Open) {name : String}
    (hname : σ.symbols.lookup? name = none) (ty : Ty) : (σ.declare name ty).Aligned where
  named := by
    have hmove : σ.builder.Move {name} (σ.builder.allocate name ty.slotTy) :=
      .allocate ty.slotTy hopen rfl
    exact hmove.named hσ.named
  slots := by
    have hslots : (σ.declare name ty).builder.function.slots.Perm
        (σ.builder.function.slots ++ [σ.builder.nextSlot name ty.slotTy]) :=
      Builder.Open.slots_append hopen _
    exact (hslots.trans (List.perm_append_singleton _ _)).trans (hσ.slots.cons _)
  typed := List.forall_mem_cons.mpr ⟨rfl, hσ.typed⟩
  keys := List.nodup_cons.mpr ⟨SymbolTable.not_mem_keys hname, hσ.keys⟩

theorem keeps_declare (name : String) (ty : Ty) : Keeps Aligned (LowerM.declare name ty) := by
  intro σ hσ
  rcases after_declare name ty σ with h | ⟨hopen, hname, h⟩
  · rw [h]
    exact hσ
  · rw [h]
    exact hσ.declare hopen hname ty

theorem stable : Stable Aligned where
  stack hσ _ := ⟨hσ.named, hσ.slots, hσ.typed, hσ.keys⟩
  call hx σ hσ := by
    have hreach := hx.reach σ.builder
    rw [after_lift]
    exact hσ.build hreach hreach.slots_perm
  appendBlock base σ hσ := by
    rw [after_lift, after_ok (appendBlock_apply base σ.builder)]
    refine hσ.build (.single (.addBlock σ.builder (Set.mem_univ base))) (List.Perm.of_eq ?_)
    exact congrArg (List.filterMap Instr.made?) (σ.builder.instructions_addBlock base)
  declare := keeps_declare

/-! ### What it says about variables -/

theorem nodup_slots (hσ : σ.Aligned) : (σ.builder.function.slots.map Slot.name).Nodup :=
  (List.nodup_append.mp hσ.named.distinct).2.1

theorem slot_mem (hσ : σ.Aligned) {name : String} {symbol : Symbol}
    (h : σ.symbols.lookup? name = some symbol) : symbol.slot ∈ σ.builder.function.slots :=
  hσ.slots.mem_iff.mpr (List.mem_map_of_mem (SymbolTable.mem_entries h))

theorem eq_of_slot_name_eq (hσ : σ.Aligned) {x y : String} {a b : Symbol}
    (hx : σ.symbols.lookup? x = some a) (hy : σ.symbols.lookup? y = some b)
    (hname : a.slot.name = b.slot.name) : x = y := by
  have hnodup : (σ.symbols.entries.map fun entry => entry.2.slot.name).Nodup := by
    have hslots := (hσ.slots.map Slot.name).nodup_iff.mp hσ.nodup_slots
    rwa [List.map_map] at hslots
  exact congrArg Prod.fst (List.inj_on_of_nodup_map hnodup (SymbolTable.mem_entries hx)
    (SymbolTable.mem_entries hy) hname)

theorem exists_lookup? (hσ : σ.Aligned) {slot : Slot} (h : slot ∈ σ.builder.function.slots) :
    ∃ name symbol, σ.symbols.lookup? name = some symbol ∧ symbol.slot = slot := by
  obtain ⟨entry, hentry, rfl⟩ := List.mem_map.mp (hσ.slots.mem_iff.mp h)
  exact ⟨entry.1, entry.2, SymbolTable.lookup?_of_mem hσ.keys hentry, rfl⟩

theorem name_not_mem_blockNames (hσ : σ.Aligned) {slot : Slot}
    (h : slot ∈ σ.builder.function.slots) : slot.name ∉ σ.builder.function.blockNames := by
  intro hblock
  exact (List.nodup_append.mp hσ.named.distinct).2.2 _ hblock _ (List.mem_map_of_mem h) rfl

end Aligned

/-- The variables and the slots in the code correspond one to one. -/
structure OneToOne (σ : Lowering) : Prop where
  made_once : ∀ name symbol, σ.symbols.lookup? name = some symbol →
    symbol.slot ∈ σ.builder.function.slots ∧
      (σ.builder.function.slots.map Slot.name).count symbol.slot.name = 1
  apart : ∀ x y a b, σ.symbols.lookup? x = some a → σ.symbols.lookup? y = some b → x ≠ y →
    a.slot.name ≠ b.slot.name
  declared : ∀ slot ∈ σ.builder.function.slots,
    ∃ name symbol, σ.symbols.lookup? name = some symbol ∧ symbol.slot = slot
  /-- Blocks and slots share one table of names, but no name. -/
  not_label : ∀ name symbol, σ.symbols.lookup? name = some symbol →
    symbol.slot.name ∉ σ.builder.function.blockNames
  typed : ∀ name symbol, σ.symbols.lookup? name = some symbol →
    symbol.slot.ty = symbol.ty.slotTy

theorem Aligned.oneToOne {σ : Lowering} (hσ : σ.Aligned) : σ.OneToOne where
  made_once _ _ h :=
    ⟨hσ.slot_mem h, List.count_eq_one_of_mem hσ.nodup_slots (List.mem_map_of_mem (hσ.slot_mem h))⟩
  apart _ _ _ _ hx hy hne hname := hne (hσ.eq_of_slot_name_eq hx hy hname)
  declared _ h := hσ.exists_lookup? h
  not_label _ _ h := hσ.name_not_mem_blockNames (hσ.slot_mem h)
  typed _ _ h := hσ.typed _ (SymbolTable.mem_entries h)

end Lowering

/-! ## Programs -/

/-- Observation is faithful to lowering, a declaration that succeeds declares its variable, and
variables have slots of their own in all states that are seen. -/
theorem Program.slots_oneToOne (p : Program) (name : String) :
    ((∀ d : Decl, Faithful d.observe d.lower) ∧ (∀ a : Assign, Faithful a.observe a.lower) ∧
      (∀ e : Expr, Faithful e.observe e.lower) ∧ ∀ s : Stmt, Faithful s.observe s.lower) ∧
    Journal.erase (p.observe ⟨.new name, []⟩) = p.lower (.new name) ∧
    (∀ (d : Decl) (σ σ' : Lowering), d.lower σ = .ok () σ' →
      ∃ slot, σ'.symbols.lookup? d.name = some ⟨slot, d.ty⟩) ∧
    ∀ σ ∈ (after p.observe ⟨.new name, []⟩).seen, σ.OneToOne := by
  have hstable := Lowering.Aligned.stable
  have hobserves := p.observe_observes hstable
  refine ⟨⟨?_, ?_, ?_, ?_⟩, hobserves.erase_eq ⟨.new name, []⟩, ?_, fun σ hσ => ?_⟩
  · exact fun d => (d.observe_records hstable).toFaithful
  · exact fun a => (a.observe_records hstable).toFaithful
  · exact fun e => (e.observe_records hstable).toFaithful
  · exact fun s => (s.observe_records hstable).toFaithful
  · exact fun d σ σ' h => ⟨_, d.lookup?_of_lower h⟩
  · have hstart : Journal.All Lowering.Aligned ⟨.new name, []⟩ :=
      ⟨.new name, List.forall_mem_nil _⟩
    exact ((hobserves.all _ hstart).2 σ hσ).oneToOne

end TinyC
