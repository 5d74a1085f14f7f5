import TinyC.Proofs.Ir.Legible
import TinyC.Proofs.Ir.Linked
import TinyC.Proofs.Lowering.SingleAssignment

/-!
# Compiled modules can be told from their text

Blocks and slots of a compiled function have plain names and its registers are numbered, so that no
name has a blank in it. Its constants are rounded to the narrower format, which leaves quiet
patterns only. So a compiled module is legible. Main statement: sources that compile to the same
text compile to the same module.
-/

namespace TinyC

open Ir

theorem Ir.Value.Live.legible {before : List Instr} {k : Nat} {v : Value} (h : v.Live before k) :
    v.Legible := by
  cases v with
  | int n => trivial
  | float x => exact h.quiet x rfl
  | bool b => trivial
  | reg r =>
    obtain ⟨-, n, hname, -⟩ := h.made r rfl
    change Unbroken r.name
    rw [hname]
    exact unbroken_regName n

namespace Lowering

theorem Reach.function_name {name : String} {σ : Lowering} (h : Reach (.new name) σ) :
    σ.builder.function.name = name :=
  h.preserves (I := fun σ => σ.builder.function.name = name)
    (fun hmove hσ => hmove.reach_builder.function_name.trans hσ) rfl

namespace Done

variable {name : String} {σ : Lowering}

theorem legible_instr (h : Done name σ) (hnames : ∀ entry ∈ σ.scope, Plain entry.1) {blk : Block}
    (hblk : blk ∈ σ.builder.function.blocks) {i : Instr} (hi : i ∈ blk.instrs) : i.Legible := by
  have hmem : i ∈ σ.builder.function.instructions := List.mem_flatMap.mpr ⟨blk, hblk, hi⟩
  have hslots : ∀ s ∈ σ.builder.function.slots, Unbroken s.name := by
    intro s hs
    have hused : s.name ∈ σ.builder.function.usedNames :=
      List.mem_append_right _ (List.mem_map_of_mem hs)
    exact (h.plain_usedNames hnames _ hused).unbroken
  obtain ⟨j, hj⟩ := List.mem_iff_getElem?.mp hi
  have hfits := (h.invariant.blocks blk hblk).instrs j i hj
  refine ⟨hfits.typed, fun v hv => (hfits.operands v hv).legible, fun r hr => ?_, fun s hs => ?_,
    fun s hs => ?_⟩
  · have hdefined : r ∈ σ.builder.function.defined := List.mem_filterMap.mpr ⟨i, hmem, hr⟩
    obtain ⟨n, -, hname⟩ := h.invariant.named.exists_number (List.mem_map_of_mem hdefined)
    rw [hname]
    exact unbroken_regName n
  · exact hslots s (h.invariant.owns (hfits.slot s hs)).1
  · exact hslots s (List.mem_filterMap.mpr ⟨i, hmem, hs⟩)

theorem legible_block (h : Done name σ) (hnames : ∀ entry ∈ σ.scope, Plain entry.1) {blk : Block}
    (hblk : blk ∈ σ.return0.builder.function.blocks) : blk.Legible := by
  have hblocks : ∀ name ∈ σ.builder.function.blockNames, Unbroken name := fun name hname =>
    (h.reach_new.plainlyNamed.blocks name hname).unbroken
  rcases h.mem_blocks hblk with ⟨cur, hcur, rfl⟩ | ⟨hmem, t, hterminator, hleaves⟩
  · refine ⟨hblocks cur.name (List.mem_map_of_mem hcur), fun i hi => h.legible_instr hnames hcur hi,
      _, rfl, ⟨.i32, .int 0, rfl, rfl⟩, ?_, ?_⟩
    · simp [Terminator.targets]
    · simp [Terminator.operands, Value.Legible]
  · refine ⟨hblocks _ (List.mem_map_of_mem hmem), fun i hi => h.legible_instr hnames hmem hi,
      t, hterminator, ⟨.i32, hleaves.typed _⟩, ?_, ?_⟩
    · exact fun target htarget => hblocks target (hleaves.targets htarget)
    · exact fun v hv => (hleaves.operands v hv).legible

theorem legible (h : Done name σ) (hname : Unbroken name)
    (hnames : ∀ entry ∈ σ.scope, Plain entry.1) : σ.return0.builder.function.Legible where
  name := by
    rw [return0, Lowering.close, Builder.close, Builder.modifyCurrent_name,
      h.reach_new.function_name]
    exact hname
  nonempty := h.wellFormed.nonempty
  blocks _ hblk := h.legible_block hnames hblk

end Done

end Lowering

/-! ## Compiled modules -/

theorem compile_legible {source : String} {c : Compilation} (h : compile source = .ok c) :
    c.module.Legible := by
  obtain ⟨parsed, hparse, hmodule⟩ := compile_eq_ok h
  rcases parsed.program.lower_cases with ⟨σ, hcheck, -, hdone, hok, -⟩ | ⟨e, τ, -, -, herror⟩
  · have hname := (parse_isWord_name hparse).plain.unbroken
    rw [← Except.ok.inj (hok.symm.trans hmodule)]
    refine ⟨hname, _, rfl, hdone.legible hname fun entry hentry => ?_⟩
    exact (parse_isWord hparse hcheck hentry).plain
  · cases herror.symm.trans hmodule

/-- The text of a compiled module says all there is: modules with the same text are the same. -/
theorem compile_module_text_inj {source source' : String} {c c' : Compilation}
    (h : compile source = .ok c) (h' : compile source' = .ok c')
    (htext : c.module.text = c'.module.text) : c.module = c'.module :=
  Module.injOn_text (compile_legible h) (compile_legible h') htext

/-- The second source writes one number with an exponent, and the other as an integer that is
converted. -/
theorem sum_module_text_inj :
    ∃ c c', compile "int main() { float x = 0.1; x = x + 2.0; }" = .ok c ∧
      compile "int main() { float x = 1e-1; x = x + 2; }" = .ok c' ∧
      c.module.text = c'.module.text ∧ c.module = c'.module := by
  generalize hsource : "int main() { float x = 0.1; x = x + 2.0; }" = source
  generalize hsource' : "int main() { float x = 1e-1; x = x + 2; }" = source'
  have htext : (compile source).toOption.map (·.module.text) =
      (compile source').toOption.map (·.module.text) := by
    rw [← hsource, ← hsource']
    decide +kernel
  have hok : (compile source).isOk := by
    rw [← hsource]
    decide +kernel
  cases h : compile source with
  | error e =>
    rw [h] at hok
    cases hok
  | ok c =>
    rw [h] at htext
    cases h' : compile source' with
    | error e =>
      rw [h'] at htext
      cases htext
    | ok c' =>
      rw [h'] at htext
      have htext := Option.some.inj htext
      exact ⟨c, c', rfl, rfl, htext, compile_module_text_inj h h' htext⟩

end TinyC
