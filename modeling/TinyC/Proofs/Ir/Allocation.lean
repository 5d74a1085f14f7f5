import TinyC.Proofs.Early
import TinyC.Proofs.Ir.Typing

/-!
# Allocation before use

Control goes through a function along paths that begin at its first block. A function allocates
first if on every path a slot is made before it is loaded from or stored to.

The question is asked for one slot at a time. `Skips` are the blocks that control may get to
without having made the slot, and the function is at fault if one of them uses it too early. While
a function is built, only the end of a block adds to the blocks that skip the slot.
-/

namespace TinyC.Ir

/-! ## Paths -/

/-- A path from the first block of a function to some block of it. `before` are the instructions of
the blocks on the way, in order. -/
inductive Function.Path (f : Function) : List Instr → Block → Prop
  | first {blk : Block} : f.blocks.head? = some blk → Path f [] blk
  | next {before : List Instr} {blk blk' : Block} {t : Terminator} : Path f before blk →
    blk.terminator = some t → blk' ∈ f.blocks → blk'.name ∈ t.targets →
    Path f (before ++ blk.instrs) blk'

/-- Wherever a path leads to a load or a store, the slot has been made on the way. -/
def Function.AllocatesFirst (f : Function) : Prop :=
  ∀ before blk, f.Path before blk → ∀ pre i post s, blk.instrs = pre ++ i :: post →
    i.slot? = some s → .alloca s ∈ before ++ pre

/-! ## Early uses of a slot -/

/-- The code uses the slot before it makes it. -/
def UsesEarly (s : Slot) (code : List Instr) : Prop :=
  Early (fun i => i.slot? = some s) (fun i => i = .alloca s) code

section

variable {s : Slot} {code code' : List Instr}

@[simp] theorem not_usesEarly_nil : ¬UsesEarly s [] := not_early_nil

@[simp] theorem usesEarly_singleton {i : Instr} : UsesEarly s [i] ↔ i.slot? = some s := by
  simp [UsesEarly, early_cons]

theorem usesEarly_append :
    UsesEarly s (code ++ code') ↔
      UsesEarly s code ∨ .alloca s ∉ code ∧ UsesEarly s code' := by
  simp only [UsesEarly, early_append, List.forall_mem_ne']

theorem not_mem_of_made (h : code.filterMap Instr.made? = []) : .alloca s ∉ code := by
  intro hmem
  cases List.filterMap_eq_nil_iff.mp h _ hmem

theorem usesEarly_of_made (h : code.filterMap Instr.made? = []) :
    UsesEarly s code ↔ Uses s code := by
  refine early_iff_exists ?_
  rintro i hi rfl
  exact not_mem_of_made h hi

end

/-! ## Blocks that skip a slot -/

namespace Function

/-- Control may get to the block of a name through blocks that do not make the slot. -/
inductive Skips (f : Function) (s : Slot) : String → Prop
  | first {blk : Block} : f.blocks.head? = some blk → Skips f s blk.name
  | next {blk : Block} {t : Terminator} {name : String} : Skips f s blk.name → blk ∈ f.blocks →
    .alloca s ∉ blk.instrs → blk.terminator = some t → name ∈ t.targets → Skips f s name

/-- Control may get to a block that uses the slot too early. -/
def Exposes (f : Function) (s : Slot) : Prop :=
  ∃ blk ∈ f.blocks, f.Skips s blk.name ∧ UsesEarly s blk.instrs

variable {f g : Function} {s : Slot}

theorem Path.mem {before : List Instr} {blk : Block} (h : f.Path before blk) : blk ∈ f.blocks := by
  cases h with
  | first hhead => exact List.mem_of_head? hhead
  | next _ _ hmem _ => exact hmem

theorem Path.skips {before : List Instr} {blk : Block} (h : f.Path before blk)
    (hs : .alloca s ∉ before) : f.Skips s blk.name := by
  induction h with
  | first hhead => exact .first hhead
  | next hpath ht _ htarget ih =>
    rw [List.mem_append, not_or] at hs
    exact .next (ih hs.1) hpath.mem hs.2 ht htarget

theorem Skips.exists_path (hnames : f.blockNames.Nodup) {name : String} (h : f.Skips s name)
    {blk : Block} (hblk : blk ∈ f.blocks) (hname : blk.name = name) :
    ∃ before, f.Path before blk ∧ .alloca s ∉ before := by
  induction h generalizing blk with
  | first hhead =>
    obtain rfl := List.inj_on_of_nodup_map hnames hblk (List.mem_of_head? hhead) hname
    exact ⟨[], .first hhead, List.not_mem_nil⟩
  | next _ hfrom hmade ht htarget ih =>
    obtain ⟨before, hpath, hbefore⟩ := ih hfrom rfl
    refine ⟨_, .next hpath ht hblk (hname ▸ htarget), ?_⟩
    exact List.not_mem_append hbefore hmade

theorem allocatesFirst_iff (hnames : f.blockNames.Nodup) :
    f.AllocatesFirst ↔ ∀ s, ¬f.Exposes s := by
  constructor
  · rintro h s ⟨blk, hblk, hskips, pre, i, post, hinstrs, hi, hpre⟩
    obtain ⟨before, hpath, hbefore⟩ := hskips.exists_path hnames hblk rfl
    have hmem := h before blk hpath pre i post s hinstrs hi
    exact List.not_mem_append hbefore (fun hmade => hpre _ hmade rfl) hmem
  · intro h before blk hpath pre i post s hinstrs hi
    by_contra hmem
    rw [List.mem_append, not_or] at hmem
    refine h s ⟨blk, hpath.mem, hpath.skips hmem.1, pre, i, post, hinstrs, hi, ?_⟩
    rintro _ hmade rfl
    exact hmem.2 hmade

/-! ### Functions under construction -/

theorem Skips.of_head? {name : String} (h : f.blockNames.head? = some name) : f.Skips s name := by
  rw [blockNames, List.head?_map] at h
  obtain ⟨blk, hblk, rfl⟩ := Option.map_eq_some_iff.mp h
  exact .first hblk

theorem head?_blockNames {blk : Block} (h : f.blocks.head? = some blk) :
    f.blockNames.head? = some blk.name := by
  rw [blockNames, List.head?_map, h]
  rfl

/-- Open blocks lead nowhere, so only the sealed ones matter. -/
theorem Skips.of_sealed (hhead : f.blockNames.head? = g.blockNames.head?)
    (hsealed : ∀ blk ∈ f.blocks, blk.terminator.isSome → blk ∈ g.blocks) {name : String}
    (h : f.Skips s name) : g.Skips s name := by
  induction h with
  | first hblk => exact .of_head? (hhead ▸ head?_blockNames hblk)
  | next _ hblk hmade ht htarget ih =>
    exact .next ih (hsealed _ hblk (by simp [ht])) hmade ht htarget

theorem Skips.mem_blockNames
    (htargets : ∀ blk ∈ f.blocks, ∀ t ∈ blk.terminator, t.targets ⊆ f.blockNames) {name : String}
    (h : f.Skips s name) : name ∈ f.blockNames := by
  cases h with
  | first hhead => exact List.mem_map_of_mem (List.mem_of_head? hhead)
  | next _ hblk _ ht htarget => exact htargets _ hblk _ ht htarget

end Function

namespace Builder

variable {b : Builder} {s : Slot} {i : Nat} {cur : Block}

/-- Control may get to the cursor without having made the slot. -/
def Misses (b : Builder) (s : Slot) : Prop :=
  ∃ i blk, b.At i blk ∧ b.function.Skips s blk.name ∧ .alloca s ∉ blk.instrs

theorem At.misses_iff (h : b.At i cur) :
    b.Misses s ↔ b.function.Skips s cur.name ∧ .alloca s ∉ cur.instrs := by
  constructor
  · rintro ⟨i', blk, hat, hskips, hmade⟩
    obtain ⟨-, rfl⟩ := hat.unique h
    exact ⟨hskips, hmade⟩
  · rintro ⟨hskips, hmade⟩
    exact ⟨i, cur, h, hskips, hmade⟩

theorem At.mem (h : b.At i cur) : cur ∈ b.function.blocks := List.mem_of_getElem? h.block

/-- A change to the current block leaves the other ones. -/
theorem At.mem_modifyCurrent_of_ne (h : b.At i cur) {f : Block → Block} {blk : Block}
    (hblk : blk ∈ b.function.blocks) (hne : blk ≠ cur) :
    blk ∈ (b.modifyCurrent f).function.blocks := by
  obtain ⟨pre, post, hblocks, hmodify⟩ := h.split
  rw [hblocks, List.mem_append, List.mem_cons] at hblk
  rw [hmodify, List.mem_append, List.mem_cons]
  tauto

/-! #### Code -/

theorem At.skips_append (h : b.At i cur) (hcur : cur.terminator = none) (code : List Instr)
    {name : String} : (b.append code).function.Skips s name ↔ b.function.Skips s name := by
  have hhead : (b.append code).function.blockNames.head? = b.function.blockNames.head? := by
    rw [blockNames_append]
  -- The current block is open, before and after.
  refine ⟨.of_sealed hhead fun blk hblk hsome => ?_, .of_sealed hhead.symm fun blk hblk hsome => ?_⟩
  · rcases h.mem_modifyCurrent hblk with rfl | hblk
    · simp [hcur] at hsome
    · exact hblk
  · refine h.mem_modifyCurrent_of_ne hblk ?_
    rintro rfl
    simp [hcur] at hsome

theorem At.exposes_append (h : b.At i cur) (hcur : cur.terminator = none) (code : List Instr) :
    (b.append code).function.Exposes s ↔
      b.function.Exposes s ∨ b.Misses s ∧ UsesEarly s code := by
  obtain ⟨pre, post, hblocks, hmodify⟩ := h.split
  have hnew : (b.append code).function.blocks =
      pre ++ { cur with instrs := cur.instrs ++ code } :: post := hmodify _
  unfold Function.Exposes
  simp only [h.skips_append hcur, h.misses_iff, hnew, hblocks, List.mem_append, List.mem_cons,
    or_and_right, exists_or, exists_eq_left, usesEarly_append]
  itauto

/-! #### Blocks -/

theorem Open.skips_addBlock (h : b.Open) (base : String) {name : String} :
    (b.addBlock base).function.Skips s name ↔ b.function.Skips s name := by
  obtain ⟨i, cur, hat, -⟩ := h
  have hhead : (b.addBlock base).function.blockNames.head? = b.function.blockNames.head? := by
    rw [blockNames_addBlock, List.head?_append_of_ne_nil]
    exact List.ne_nil_of_mem (mem_blockNames hat.block)
  refine ⟨.of_sealed hhead fun blk hblk hsome => ?_, .of_sealed hhead.symm fun blk hblk hsome => ?_⟩
  · rcases List.mem_append.mp hblk with hblk | hblk
    · exact hblk
    · rw [List.mem_singleton.mp hblk] at hsome
      cases hsome
  · exact List.mem_append_left _ hblk

theorem Open.misses_addBlock (h : b.Open) (base : String) :
    (b.addBlock base).Misses s ↔ b.Misses s := by
  obtain ⟨i, cur, hat, hcur⟩ := id h
  rw [(hat.addBlock base).misses_iff, hat.misses_iff, h.skips_addBlock]

theorem Open.exposes_addBlock (h : b.Open) (base : String) :
    (b.addBlock base).function.Exposes s ↔ b.function.Exposes s := by
  have hnew : (b.addBlock base).function.blocks =
      b.function.blocks ++ [⟨(b.names.fresh base).1, [], none⟩] := rfl
  simp [Function.Exposes, h.skips_addBlock, hnew, or_and_right, exists_or]

/-! #### Jumps -/

/-- A jump to the block of a name does no harm: nothing is in it yet, or control may get there
without the slot as it is. -/
def Admits (b : Builder) (s : Slot) (name : String) : Prop :=
  (∃ j blk, b.Pending j blk ∧ blk.name = name ∧ blk.instrs = []) ∨
    (b.Misses s → b.function.Skips s name)

theorem Pending.admits {j : Nat} {blk : Block} (h : b.Pending j blk) (hempty : blk.instrs = []) :
    b.Admits s blk.name :=
  .inl ⟨j, blk, h, rfl, hempty⟩

/-- Control gets on without the slot to where it got before, and to where it is sent. -/
theorem At.skips_close (h : b.At i cur) (hcur : cur.terminator = none)
    (hnames : b.function.blockNames.Nodup) {t : Terminator}
    (ht : ∀ name ∈ t.targets, b.Admits s name) {name : String} :
    (b.close t).function.Skips s name ↔
      b.function.Skips s name ∨ name ∈ t.targets ∧ b.Misses s := by
  have hhead : (b.close t).function.blockNames.head? = b.function.blockNames.head? := by
    rw [blockNames_close]
  have hmono : ∀ {name}, b.function.Skips s name → (b.close t).function.Skips s name := by
    refine .of_sealed hhead.symm fun blk hblk hsome => h.mem_modifyCurrent_of_ne hblk ?_
    rintro rfl
    simp [hcur] at hsome
  constructor
  · intro hskips
    induction hskips with
    | first hblk => exact .inl (.of_head? (hhead ▸ Function.head?_blockNames hblk))
    | @next blk t' name _ hblk hmade hblkt htarget ih =>
      rcases h.mem_modifyCurrent hblk with rfl | hblk
      · cases hblkt
        refine .inr ⟨htarget, h.misses_iff.mpr ⟨?_, hmade⟩⟩
        exact ih.elim id fun hmiss => (h.misses_iff.mp hmiss.2).1
      · refine .inl ?_
        rcases ih with hskips | ⟨hmem, hmiss⟩
        · exact .next hskips hblk hmade hblkt htarget
        · rcases ht _ hmem with ⟨j, blk', hpending, hname, -⟩ | hadmits
          -- A block that waits to be filled leads nowhere.
          · obtain rfl := List.inj_on_of_nodup_map hnames
              (List.mem_of_getElem? hpending.block) hblk hname
            rw [hpending.opened] at hblkt
            cases hblkt
          · exact .next (hadmits hmiss) hblk hmade hblkt htarget
  · rintro (hskips | ⟨hmem, hmiss⟩)
    · exact hmono hskips
    · obtain ⟨hskips, hmade⟩ := h.misses_iff.mp hmiss
      have hcurrent : (b.close t).function.Skips s { cur with terminator := some t }.name :=
        hmono hskips
      exact .next hcurrent (h.close t).mem hmade rfl hmem

theorem At.exposes_close (h : b.At i cur) (hcur : cur.terminator = none)
    (hnames : b.function.blockNames.Nodup) {t : Terminator}
    (ht : ∀ name ∈ t.targets, b.Admits s name) :
    (b.close t).function.Exposes s ↔ b.function.Exposes s := by
  obtain ⟨pre, post, hblocks, hmodify⟩ := h.split
  have hnew : (b.close t).function.blocks =
      pre ++ { cur with terminator := some t } :: post := hmodify _
  -- The end of a block does not change what is in it.
  have hsame : (b.close t).function.Exposes s ↔
      ∃ blk ∈ b.function.blocks, (b.close t).function.Skips s blk.name ∧
        UsesEarly s blk.instrs := by
    unfold Function.Exposes
    simp only [hnew, hblocks, List.mem_append, List.mem_cons, or_and_right, exists_or,
      exists_eq_left]
  rw [hsame]
  refine exists_congr fun blk => and_congr_right fun hblk => and_congr_left fun hearly => ?_
  rw [h.skips_close hcur hnames ht]
  refine or_iff_left_of_imp ?_
  rintro ⟨hmem, hmiss⟩
  rcases ht _ hmem with ⟨j, blk', hpending, hname, hempty⟩ | hadmits
  · obtain rfl := List.inj_on_of_nodup_map hnames
      (List.mem_of_getElem? hpending.block) hblk hname
    rw [hempty] at hearly
    exact absurd hearly not_usesEarly_nil
  · exact hadmits hmiss

end Builder

end TinyC.Ir
