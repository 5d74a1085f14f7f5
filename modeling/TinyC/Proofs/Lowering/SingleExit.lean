import TinyC.Proofs.Lowering.Program

/-!
# Single entry, single exit

The whole of a lowered program is one region of control flow, from the block it starts in to the one
that is closed by the return. So the function has a single entry and a single exit.
-/

namespace TinyC

open Ir Lowering

namespace Lowering.Done

variable {name : String} {σ : Lowering}

/-- A region that starts with the function takes in all its blocks. -/
theorem leads_return0 (h : Done name σ) (hconnects : Connects (.start name) σ) {blk : Block}
    (hblk : blk ∈ σ.return0.builder.function.blocks) :
    σ.return0.Leads (start name).here blk.name ∧ σ.return0.Leads blk.name σ.here := by
  have hname : blk.name ∈ σ.blockNames := by
    rw [blockNames, ← Builder.blockNames_close _ (.ret (some (.int 0)))]
    exact List.mem_map_of_mem hblk
  have hregion : blk.name = (start name).here ∨ blk.name ∉ (start name).blockNames := by
    rw [show (start name).blockNames = [(start name).here] from rfl, List.mem_singleton]
    exact Decidable.em _
  have hgrows := Builder.Open.grows_close h.opened (.ret (some (.int 0)))
  obtain ⟨hin, hout⟩ := hconnects.leads blk.name hname hregion
  exact ⟨hin.mono hgrows, hout.mono hgrows⟩

theorem singleEntryExit (h : Done name σ) (hconnects : Connects (.start name) σ) :
    ∃ first last, σ.return0.builder.function.SingleEntryExit first last ∧
      last.terminator = some (.ret (some (.int 0))) := by
  obtain ⟨pre, last, post, hblocks, hhere, hlast, hpre, hpost⟩ := h.exists_split
  have hgrows := (h.holds.of_reach h.reach).grows
  obtain ⟨first, hfirst, hgrown⟩ := hgrows 0 _ (at_start name).block
  have hmem : last ∈ σ.return0.builder.function.blocks := by simp [hblocks]
  refine ⟨first, last, ⟨?_, ?_, fun blk hblk => ?_, fun blk hblk => ?_⟩, hlast⟩
  · rw [List.head?_eq_getElem?]
    exact hfirst
  · have hreturns : last.Returns := by simp [Block.Returns, Block.returned?, hlast]
    rw [hblocks, List.filter_append, List.filter_cons, Block.filter_returns_eq_nil hpre,
      Block.filter_returns_eq_nil hpost, if_pos (by simpa using hreturns), List.nil_append]
  · exact (h.leads_return0 hconnects hblk).1.reaches h.wellFormed.names
      (List.mem_of_getElem? hfirst) (hgrown.name.trans (here_of_at (at_start name)).symm) hblk rfl
  · exact (h.leads_return0 hconnects hblk).2.reaches h.wellFormed.names hblk rfl hmem hhere

end Lowering.Done

namespace Program

variable {p : Program}

/-- The function of a program has a single entry and a single exit. The exit returns zero. -/
theorem toModule_singleEntryExit {m : Ir.Module} (h : p.toModule = .ok m) :
    ∃ f first last, m.functions = [f] ∧ f.SingleEntryExit first last ∧
      last.terminator = some (.ret (some (.int 0))) := by
  rcases p.lower_cases with ⟨σ, -, -, hdone, hmodule, hlowered⟩ | ⟨e, τ, -, -, hmodule⟩
  · rw [hmodule] at h
    cases h
    obtain ⟨first, last, hregion, hreturn⟩ := hdone.singleEntryExit hlowered.connects
    exact ⟨_, first, last, rfl, hregion, hreturn⟩
  · rw [hmodule] at h
    cases h

theorem sample_singleEntryExit : ∃ m, sample.toModule = .ok m ∧
    ∃ f first last, m.functions = [f] ∧ f.SingleEntryExit first last ∧
      last.terminator = some (.ret (some (.int 0))) := by
  obtain ⟨m, hm⟩ := exists_toModule check_sample
  exact ⟨m, hm, toModule_singleEntryExit hm⟩

end Program

end TinyC
