import TinyC.Proofs.Lowering.Program

/-!
# Functions that allocate first

There is one flat scope, so a variable may be used behind a loop or an arm that declares it, and
control may get there around the declaration. The function of a program allocates every slot before
its use on all paths exactly if the program declares every variable before its use on all ways
through it.
-/

namespace TinyC

open Ir Lowering

namespace Lowering

/-! ## Slots and their variables -/

namespace Invariant

variable {σ : Lowering}

theorem owns_slot (hσ : σ.Invariant) {x : String} {a : Symbol}
    (hx : σ.symbols.lookup? x = some a) : σ.symbols.Owns x a.slot := by
  intro y b hy
  constructor
  · intro hslot
    exact hσ.slot_injective hy hx (congrArg Slot.name hslot)
  · rintro rfl
    rw [Option.some.inj (hy.symm.trans hx)]

/-- A name that is not declared may be given a slot of a type that variables do not have. -/
theorem exists_owns (hσ : σ.Invariant) (x : String) : ∃ s, σ.symbols.Owns x s := by
  cases hx : σ.symbols.lookup? x with
  | some a => exact ⟨a.slot, hσ.owns_slot hx⟩
  | none =>
    refine ⟨⟨x, .i1⟩, fun y b hy => ⟨fun hslot => ?_, ?_⟩⟩
    · have hty := hσ.typed _ (SymbolTable.mem_entries hy)
      rw [hslot] at hty
      obtain ⟨slot, ty⟩ := b
      cases ty <;> cases hty
    · rintro rfl
      rw [hx] at hy
      cases hy

/-- Only slots of variables are used. -/
theorem hasSlot_of_exposes (hσ : σ.Invariant) {s : Slot} (h : σ.Exposes s) : σ.HasSlot s := by
  obtain ⟨blk, hblk, -, pre, i, post, hinstrs, hi, -⟩ := h
  have hat : blk.instrs[pre.length]? = some i := by simp [hinstrs]
  exact ((hσ.blocks blk hblk).instrs _ i hat).slot s hi

end Invariant

/-! ## The first block and the last -/

theorem misses_start (name : String) (s : Slot) : (start name).Misses s :=
  (at_start name).misses_iff.mpr ⟨.first rfl, List.not_mem_nil⟩

theorem not_exposes_start (name : String) (s : Slot) : ¬(start name).Exposes s := by
  rintro ⟨blk, hblk, -, hearly⟩
  obtain rfl : blk = (Lowering.new name).newBlock "entry" := List.mem_singleton.mp hblk
  exact not_usesEarly_nil hearly

theorem Done.exposes_return0 {name : String} {σ : Lowering} (h : Done name σ) (s : Slot) :
    σ.return0.Exposes s ↔ σ.Exposes s := by
  obtain ⟨i, cur, hat, hcur⟩ := h.opened
  exact hat.exposes_close hcur h.invariant.nodup_blockNames (by simp [Terminator.targets])

end Lowering

namespace Program

variable {p : Program} {σ : Lowering} {N : Prop} {R : Primitives → Store → Store → Prop}

theorem exposes_iff (h : Done p.name σ) (hlowered : Lowered N R p.flow (.start p.name) σ)
    {x : String} {s : Slot} (hs : σ.symbols.Owns x s) :
    σ.return0.Exposes s ↔ p.flow.UsesEarly x := by
  have hinv : (Lowering.start p.name).Invariant :=
    Reach.invariant (.tail (.single (.addBlock _ (by decide))) (.moveTo _ 0))
  rw [h.exposes_return0, (hlowered.traces hinv x s hs).exposes,
    or_iff_right (not_exposes_start _ s), and_iff_right (misses_start _ s)]

theorem allocatesFirst_return0_iff (h : Done p.name σ)
    (hlowered : Lowered N R p.flow (.start p.name) σ) :
    σ.return0.builder.function.AllocatesFirst ↔ p.DeclaresFirst := by
  rw [Function.allocatesFirst_iff h.wellFormed.names, declaresFirst_iff]
  constructor
  · intro hslots x
    obtain ⟨s, hs⟩ := h.invariant.exists_owns x
    rw [← exposes_iff h hlowered hs]
    exact hslots s
  · intro hnames s hexposes
    have hslot := h.invariant.hasSlot_of_exposes ((h.exposes_return0 s).mp hexposes)
    obtain ⟨x, a, hx, rfl⟩ := hslot
    exact hnames x ((exposes_iff h hlowered (h.invariant.owns_slot hx)).mp hexposes)

/-- The function of a program makes every slot before it is used, on every path, exactly if the
program declares every variable before it uses it, on every way through it. -/
theorem toModule_allocatesFirst_iff {m : Ir.Module} (h : p.toModule = .ok m) :
    ∃ f, m.functions = [f] ∧ (f.AllocatesFirst ↔ p.DeclaresFirst) := by
  rcases p.lower_cases with ⟨σ, -, -, hdone, hmodule, hlowered⟩ | ⟨e, τ, -, -, hmodule⟩
  · rw [hmodule] at h
    cases h
    exact ⟨_, rfl, allocatesFirst_return0_iff hdone hlowered⟩
  · rw [hmodule] at h
    cases h

theorem sample_allocatesFirst : sample.DeclaresFirst ∧
    ∃ m, sample.toModule = .ok m ∧ ∃ f, m.functions = [f] ∧ f.AllocatesFirst := by
  have hfirst : sample.DeclaresFirst := by
    rw [declaresFirst_iff]
    intro x
    simp only [sample, flow, Decl.flowAll, Decl.flow, Stmt.flowAll, Stmt.flow, Assign.flow,
      Expr.flow, Flow.seq, Flow.maybe, Flow.either, Flow.use, Flow.declare, Flow.none]
    grind
  obtain ⟨m, hm⟩ := exists_toModule check_sample
  obtain ⟨f, hf, hiff⟩ := toModule_allocatesFirst_iff hm
  exact ⟨hfirst, m, hm, f, hf, hiff.mpr hfirst⟩

/-- The body of the loop declares the variable, and is never run. -/
def passedBy : Program where
  name := "main"
  declarations := []
  statements := [.while_ (.int 0) [.decl ⟨.int, "x", none⟩], .assign ⟨"x", .int 1⟩]

/-- A variable that a loop declares may be stored to without having been allocated. -/
theorem passedBy_not_allocatesFirst :
    ∃ m, passedBy.toModule = .ok m ∧ ∃ f, m.functions = [f] ∧ ¬f.AllocatesFirst := by
  have hlate : passedBy.flow.UsesEarly "x" := by
    simp [passedBy, flow, Decl.flowAll, Stmt.flowAll, Stmt.flow, Assign.flow, Expr.flow,
      Flow.seq, Flow.maybe, Flow.either, Flow.use, Flow.none]
  rcases passedBy.lower_cases with ⟨σ, -, -, hdone, hmodule, hlowered⟩ | ⟨e, τ, hcheck, -, -⟩
  · refine ⟨_, hmodule, _, rfl, fun hfirst => ?_⟩
    rw [allocatesFirst_return0_iff hdone hlowered, declaresFirst_iff] at hfirst
    exact hfirst "x" hlate
  · cases hcheck

end Program

end TinyC
