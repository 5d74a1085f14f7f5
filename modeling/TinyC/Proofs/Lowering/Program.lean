import TinyC.Compile
import TinyC.Proofs.Ir.Verify
import TinyC.Proofs.Lowering.Invariants
import TinyC.Proofs.Lowering.Statement

/-!
# Lowering of programs

A program whose names are in order is lowered to a verified module, and any other fails with the
first violation. The function of the module is well typed, and it runs as the program does.
-/

namespace TinyC

open Ir Lowering

/-! ## Finished functions -/

namespace Lowering

/-- Lowering of a function is done but for the return at the end. -/
structure Done (name : String) (σ : Lowering) : Prop where
  reach : Reach (.start name) σ
  opened : σ.Open
  pending : ∀ j blk, ¬σ.builder.Pending j blk

/-- End a function, which returns zero. -/
def return0 (σ : Lowering) : Lowering := σ.close (.ret (some (.int 0)))

theorem Done.of_advances {name : String} {σ : Lowering} (h : Advances (.start name) σ) :
    Done name σ where
  reach := h.reach
  opened := h.opened
  pending j blk hpending := not_pending_start name j blk ((h.pending j blk).mp hpending)

namespace Done

variable {name : String} {σ : Lowering}

theorem reach_new (h : Done name σ) : Reach (.new name) σ := by
  have hstart : Reach (.new name) (.start name) :=
    .tail (.single (.addBlock _ (by decide))) (.moveTo _ 0)
  exact hstart.trans h.reach

theorem invariant (h : Done name σ) : σ.Invariant := h.reach_new.invariant

theorem stack (h : Done name σ) : σ.stack = [] := h.reach.stack

/-- A block of the finished function returns, or it leads on to other blocks. -/
theorem mem_blocks (h : Done name σ) {blk : Block}
    (hblk : blk ∈ σ.return0.builder.function.blocks) :
    (∃ cur ∈ σ.builder.function.blocks,
      blk = { cur with terminator := some (.ret (some (.int 0))) }) ∨
    (blk ∈ σ.builder.function.blocks ∧ ∃ t, blk.terminator = some t ∧
      t.Leaves σ.builder.function.blockNames blk.instrs σ.builder.temporaries) := by
  obtain ⟨i, cur, hat, -⟩ := h.opened
  obtain ⟨j, hj⟩ := List.mem_iff_getElem?.mp hblk
  rw [return0, Lowering.close, Builder.close, hat.modifyCurrent_blocks] at hj
  by_cases hji : j = i
  · rw [if_pos hji] at hj
    cases hj
    exact .inl ⟨cur, List.mem_of_getElem? hat.block, rfl⟩
  · rw [if_neg hji] at hj
    have hmem := List.mem_of_getElem? hj
    refine .inr ⟨hmem, ?_⟩
    cases hterminator : blk.terminator with
    | some t => exact ⟨t, rfl, (h.invariant.blocks blk hmem).terminator t hterminator⟩
    | none =>
      -- An open block that is not the current one would be pending.
      refine absurd ⟨hj, hterminator, fun hcurrent => hji ?_⟩ (h.pending j blk)
      exact BlockId.mk.inj (Option.some.inj (hcurrent.symm.trans hat.current))

theorem wellFormed (h : Done name σ) : σ.return0.builder.function.WellFormed where
  nonempty := by
    obtain ⟨i, cur, hat, -⟩ := h.opened
    intro hnil
    have hat' := (hat.close (.ret (some (.int 0)))).block
    rw [show (σ.builder.close (.ret (some (.int 0)))).function.blocks = [] from hnil] at hat'
    cases hat'
  names := by
    rw [return0, Lowering.close, Builder.blockNames_close]
    exact (List.nodup_append.mp h.invariant.names).1
  blocks := by
    intro blk hblk
    rw [return0, Lowering.close, Builder.blockNames_close]
    rcases h.mem_blocks hblk with ⟨cur, -, rfl⟩ | ⟨-, t, hterminator, hleaves⟩
    · exact ⟨_, rfl, List.nil_subset _⟩
    · exact ⟨t, hterminator, hleaves.targets⟩

/-- Instructions read registers and slots of the types they are made with. -/
theorem fits (h : Done name σ) {i : Instr} (hi : i ∈ σ.return0.builder.function.instructions) :
    i.WellTyped ∧ (∀ v ∈ i.operands, σ.builder.function.Provides v) ∧
      ∀ s ∈ i.slot?, s ∈ σ.builder.function.slots ∧
        ∀ s' ∈ σ.builder.function.slots, s'.name = s.name → s' = s := by
  rw [return0, Lowering.close, Builder.Open.instructions_close h.opened] at hi
  obtain ⟨blk, hblk, hi⟩ := List.mem_flatMap.mp hi
  obtain ⟨j, hj⟩ := List.mem_iff_getElem?.mp hi
  have hfits := (h.invariant.blocks blk hblk).instrs j i hj
  refine ⟨hfits.typed, fun v hv => ?_, fun s hs => h.invariant.owns (hfits.slot s hs)⟩
  refine h.invariant.provides (hfits.operands v hv) fun i' hi' => ?_
  exact List.mem_flatMap.mpr ⟨blk, hblk, List.mem_of_mem_take hi'⟩

/-- The block that is closed last is the only one that returns. -/
theorem exists_split (h : Done name σ) : ∃ (pre : List Block) (last : Block) (post : List Block),
    σ.return0.builder.function.blocks = pre ++ last :: post ∧ last.name = σ.here ∧
    last.terminator = some (.ret (some (.int 0))) ∧
    (∀ blk ∈ pre, blk.returned? = none) ∧ ∀ blk ∈ post, blk.returned? = none := by
  obtain ⟨i, cur, hat, -⟩ := h.opened
  obtain ⟨pre, post, hblocks, hmodify⟩ := hat.split
  have hnone : ∀ blk ∈ σ.builder.function.blocks, blk.returned? = none := by
    intro blk hblk
    refine Block.returned?_eq_none fun value heq => ?_
    exact ((h.invariant.blocks blk hblk).terminator _ heq).not_ret value rfl
  rw [hblocks] at hnone
  exact ⟨pre, _, post, hmodify _, (here_of_at hat).symm, rfl,
    fun blk hblk => hnone blk (by simp [hblk]), fun blk hblk => hnone blk (by simp [hblk])⟩

theorem returned (h : Done name σ) : σ.return0.builder.function.returned = [some (.int 0)] := by
  obtain ⟨pre, last, post, hblocks, -, hlast, hpre, hpost⟩ := h.exists_split
  have hpre' : pre.filterMap Block.returned? = [] := List.filterMap_eq_nil_iff.mpr hpre
  have hpost' : post.filterMap Block.returned? = [] := List.filterMap_eq_nil_iff.mpr hpost
  simp [Function.returned, hblocks, hpre', hpost', Block.returned?, hlast]

theorem wellTyped (h : Done name σ) : σ.return0.builder.function.WellTyped where
  instrs i hi := (h.fits hi).1
  operands i hi v hv := by
    unfold Function.Provides
    rw [return0, Lowering.close, Builder.Open.defined_close h.opened]
    exact (h.fits hi).2.1 v hv
  slots i hi s hs := by
    rw [return0, Lowering.close, Builder.Open.slots_close h.opened]
    exact (h.fits hi).2.2 s hs
  returned := ⟨.int 0, h.returned, rfl⟩
  terminators := by
    intro blk hblk t ht
    rcases h.mem_blocks hblk with ⟨cur, -, rfl⟩ | ⟨-, t', hterminator, hleaves⟩
    · cases ht
      refine ⟨.int 0, rfl, ?_⟩
      rw [return0, Lowering.close, Builder.close, Builder.modifyCurrent_ret, h.invariant.ret]
      rfl
    · obtain rfl := Option.some.inj (hterminator.symm.trans ht)
      exact hleaves.typed _
  tested := by
    intro blk hblk t ht v hv
    rcases h.mem_blocks hblk with ⟨cur, -, rfl⟩ | ⟨hmem, t', hterminator, hleaves⟩
    · cases ht
      obtain rfl : v = .int 0 := by simpa [Terminator.operands] using hv
      intro r hr
      cases hr
    · obtain rfl := Option.some.inj (hterminator.symm.trans ht)
      unfold Function.Provides
      rw [return0, Lowering.close, Builder.Open.defined_close h.opened]
      refine h.invariant.provides (hleaves.operands v hv) fun i hi => ?_
      exact List.mem_flatMap.mpr ⟨blk, hmem, hi⟩

/-! ### Runs -/

/-- The finished function with its variables. -/
def image (h : Done name σ) : Image where
  function := σ.return0.builder.function
  symbols := σ.symbols
  names := h.wellFormed.names
  slots := h.invariant.slot_injective
  typed hx := h.invariant.typed _ (SymbolTable.mem_entries hx)

variable {P : Primitives} {memory : Memory} {o : Ending}

theorem holds (h : Done name σ) : h.image.Holds σ :=
  ⟨Builder.Open.grows_close h.opened _, fun _ _ hx => hx⟩

theorem runs_iff (h : Done name σ) : σ.return0.builder.function.Runs P memory o ↔
    ∃ n, h.image.ReturnsAt P (.start name) n (.initial memory) o := by
  -- The first block of the function is the one that lowering starts in.
  have hgrows := (h.holds.of_reach h.reach).grows
  obtain ⟨entry, hentry, -⟩ := hgrows 0 _ (at_start name).block
  have hhead : σ.return0.builder.function.blocks.head? = some entry := by
    rw [List.head?_eq_getElem?]
    exact hentry
  unfold Function.Runs
  simp only [hhead, Option.mem_def, Option.some.injEq, exists_eq_left']
  refine exists_congr fun n => ?_
  exact (Image.returnsAt_iff (at_start name) hentry rfl).symm

theorem returnsAt_iff (h : Done name σ) {n : Nat} {st : Ir.State} :
    h.image.ReturnsAt P σ n st o ↔ n = 0 ∧ o = ⟨some (.int 0), st.memory⟩ := by
  obtain ⟨i, cur, hat, -⟩ := h.opened
  have hlast : h.image.function.blocks[i]? =
      some { cur with terminator := some (.ret (some (.int 0))) } :=
    (hat.close (.ret (some (.int 0)))).block
  have hcode : { cur with terminator := some (.ret (some (.int 0))) }.instrs = cur.instrs ++ [] :=
    (List.append_nil _).symm
  rw [Image.returnsAt_iff hat hlast hcode, Function.Returns.ret_int_iff]

theorem exists_runs (h : Done name σ) {R : Store → Store → Prop}
    (hsim : Simulates h.image P R (.start name) σ) {S' : Store}
    (hR : R (σ.symbols.view memory) S') :
    ∃ memory', σ.return0.builder.function.Runs P memory ⟨some (.int 0), memory'⟩ ∧
      σ.symbols.view memory' = S' := by
  obtain ⟨st', hview, hst'⟩ := hsim.forward (.initial memory) S' hR
  exact ⟨st'.memory, h.runs_iff.mpr (hst' 0 _ (h.returnsAt_iff.mpr ⟨rfl, rfl⟩)), hview⟩

theorem of_runs (h : Done name σ) {R : Store → Store → Prop}
    (hsim : Simulates h.image P R (.start name) σ)
    (hruns : σ.return0.builder.function.Runs P memory o) :
    o.value = some (.int 0) ∧ R (σ.symbols.view memory) (σ.symbols.view o.memory) := by
  obtain ⟨n, hn⟩ := h.runs_iff.mp hruns
  obtain ⟨st', n', -, hR, hn'⟩ := hsim.backward n (.initial memory) o hn
  obtain ⟨-, rfl⟩ := h.returnsAt_iff.mp hn'
  exact ⟨rfl, hR⟩

end Done

end Lowering

/-! ## Outcomes -/

namespace Program

variable {p : Program}

theorem toModule_of_error {e : Error} {τ : Lowering} (h : p.lower (.new p.name) = .error e τ) :
    p.toModule = .error e := by
  simp only [toModule, h]
  rfl

theorem toModule_of_ok {σ : Lowering} (h : p.lower (.new p.name) = .ok () σ) (hstack : σ.stack = [])
    (hverify : σ.builder.function.verify = .ok ()) :
    p.toModule = .ok ⟨p.name, [σ.builder.function]⟩ := by
  have hmodule : Module.verify ⟨p.name, [σ.builder.function]⟩ = .ok () :=
    forM_eq_ok_iff.mpr (by simpa using hverify)
  simp only [toModule, h, Lowering.finish, hstack, List.isEmpty_nil, if_true, bind, Except.bind,
    hmodule]
  rfl

/-- What lowering ends in: a function that is done but for its return, or the first violation. -/
theorem lower_cases (p : Program) :
    (∃ σ, p.check = .ok σ.scope ∧ p.lower (.new p.name) = .ok () σ.return0 ∧ Done p.name σ ∧
      p.toModule = .ok ⟨p.name, [σ.return0.builder.function]⟩ ∧
      Lowered p.Numeric (fun P => p.Runs P) p.flow (.start p.name) σ) ∨
    (∃ e τ, p.check = .error e ∧ p.lower (.new p.name) = .error (.semantic e) τ ∧
      p.toModule = .error (.semantic e)) := by
  have hfollows := p.lower_follows
  cases hcheck : p.check with
  | error e =>
    rw [hcheck] at hfollows
    obtain ⟨τ, hτ⟩ := hfollows
    exact .inr ⟨e, τ, rfl, hτ, toModule_of_error hτ⟩
  | ok Γ =>
    rw [hcheck] at hfollows
    obtain ⟨⟨⟩, _, hrun, σ, rfl, rfl, hlowered⟩ := hfollows
    have hdone := Done.of_advances hlowered.advances
    have hverify := Function.verify_eq_ok_iff.mpr hdone.wellFormed
    exact .inl ⟨σ, rfl, hrun, hdone, toModule_of_ok hrun hdone.stack hverify, hlowered⟩

/-- The variables of a program and their slots. -/
def symbols (p : Program) : SymbolTable :=
  match p.lower (.new p.name) with
  | .ok _ σ => σ.symbols
  | .error _ σ => σ.symbols

/-- Lowering a program gives a verified function and leaves no operand behind, or it fails with a
semantic error. -/
theorem lower_safe (p : Program) :
    match p.lower (.new p.name) with
    | .ok () σ => σ.stack = [] ∧ σ.builder.function.verify = .ok () ∧
        p.toModule = .ok ⟨p.name, [σ.builder.function]⟩
    | .error e _ => ∃ s, e = .semantic s ∧ p.toModule = .error (.semantic s) := by
  rcases p.lower_cases with ⟨σ, -, hrun, hdone, hmodule, -⟩ | ⟨e, τ, -, hrun, hmodule⟩
  · rw [hrun]
    exact ⟨hdone.stack, Function.verify_eq_ok_iff.mpr hdone.wellFormed, hmodule⟩
  · rw [hrun]
    exact ⟨e, rfl, hmodule⟩

/-- A program is lowered to a module exactly if its names are in order, and fails with the first
violation. -/
theorem toModule_eq_check (p : Program) :
    match p.check with
    | .ok _ => ∃ m, p.toModule = .ok m
    | .error e => p.toModule = .error (.semantic e) := by
  rcases p.lower_cases with ⟨σ, hcheck, -, -, hmodule, -⟩ | ⟨e, τ, hcheck, -, hmodule⟩
  · rw [hcheck]
    exact ⟨_, hmodule⟩
  · rw [hcheck]
    exact hmodule

theorem exists_toModule {Γ : Scope} (h : p.check = .ok Γ) : ∃ m, p.toModule = .ok m := by
  rcases p.lower_cases with ⟨σ, -, -, -, hmodule, -⟩ | ⟨e, τ, hcheck, -, -⟩
  · exact ⟨_, hmodule⟩
  · rw [hcheck] at h
    cases h

/-- A program that mixes types, loops in both ways and uses what a loop has declared. -/
def sample : Program where
  name := "main"
  declarations := [⟨.int, "n", some (.int 3)⟩, ⟨.float, "s", none⟩]
  statements := [
    .for_ ⟨.int, "i", some (.int 0)⟩ (.binary (.compare .lt) (.var "i") (.var "n"))
      ⟨"i", .binary (.arith .add) (.var "i") (.int 1)⟩
      [.ifElse (.binary (.logic .and)
          (.binary (.compare .lt) (.var "s") (.float ⟨0x4004000000000000⟩)) (.var "i"))
        [.assign ⟨"s", .binary (.arith .add) (.var "s") (.var "i")⟩]
        [.assign ⟨"s", .int 1⟩]],
    .while_ (.var "i") [.assign ⟨"i", .binary (.arith .div) (.var "i") (.var "n")⟩]]

theorem check_sample : sample.check = .ok [("i", .int), ("s", .float), ("n", .int)] := rfl

/-- The module that a program is lowered to has one function, which is well typed and returns once,
an integer. -/
theorem toModule_wellTyped {m : Ir.Module} (h : p.toModule = .ok m) :
    ∃ f, m.functions = [f] ∧ f.WellTyped := by
  rcases p.lower_cases with ⟨σ, -, -, hdone, hmodule, -⟩ | ⟨e, τ, -, -, hmodule⟩
  · rw [hmodule] at h
    cases h
    exact ⟨_, rfl, hdone.wellTyped⟩
  · rw [hmodule] at h
    cases h

theorem sample_wellTyped :
    ∃ m, sample.toModule = .ok m ∧ ∃ f, m.functions = [f] ∧ f.WellTyped := by
  obtain ⟨m, hm⟩ := exists_toModule check_sample
  exact ⟨m, hm, toModule_wellTyped hm⟩

/-- A program and the function it is lowered to do the same. A memory holds values for exactly the
variables that are declared. From any memory, the program runs to a store if and only if the
function returns with that store in memory, and it returns nothing but zero. -/
theorem toModule_refines (hp : p.Numeric) {m : Ir.Module} (h : p.toModule = .ok m) :
    ∃ f Γ, m.functions = [f] ∧ p.check = .ok Γ ∧
      (∀ S, (∃ memory, p.symbols.view memory = S) ↔ S.Typed Γ) ∧
      ∀ (P : Primitives) (memory : Memory),
        (∀ o, f.Runs P memory o → o.value = some (.int 0)) ∧
        ∀ S, p.Runs P (p.symbols.view memory) S ↔
          ∃ memory', f.Runs P memory ⟨some (.int 0), memory'⟩ ∧ p.symbols.view memory' = S := by
  rcases p.lower_cases with ⟨σ, hcheck, hrun, hdone, hmodule, hlowered⟩ | ⟨e, τ, -, -, hmodule⟩
  · rw [hmodule] at h
    cases h
    have hsymbols : p.symbols = σ.symbols := by
      unfold symbols
      rw [hrun]
      rfl
    rw [hsymbols]
    refine ⟨_, σ.scope, rfl, hcheck, fun S => ?_, fun P memory => ?_⟩
    · rw [show σ.symbols = hdone.image.symbols from rfl, Image.exists_view_iff]
      simp only [Store.Typed, σ.lookup_scope]
      rfl
    · have hsim := hlowered.simulates hp hdone.image P hdone.holds
      refine ⟨fun o ho => (hdone.of_runs hsim ho).1, fun S => ⟨hdone.exists_runs hsim, ?_⟩⟩
      rintro ⟨memory', hruns, rfl⟩
      exact (hdone.of_runs hsim hruns).2
  · rw [hmodule] at h
    cases h

theorem sample_refines : sample.Numeric ∧ ∃ m, sample.toModule = .ok m ∧
    ∃ f Γ, m.functions = [f] ∧ sample.check = .ok Γ ∧
      (∀ S, (∃ memory, sample.symbols.view memory = S) ↔ S.Typed Γ) ∧
      ∀ (P : Primitives) (memory : Memory),
        (∀ o, f.Runs P memory o → o.value = some (.int 0)) ∧
        ∀ S, sample.Runs P (sample.symbols.view memory) S ↔
          ∃ memory', f.Runs P memory ⟨some (.int 0), memory'⟩ ∧
            sample.symbols.view memory' = S := by
  have hfloat : (⟨0x4004000000000000⟩ : Binary64).isNaN = false := by decide
  have hnumeric : sample.Numeric := by
    simpa [sample, Numeric, Decl.Numeric, Stmt.NumericAll, Stmt.Numeric, Expr.Numeric] using! hfloat
  obtain ⟨m, hm⟩ := exists_toModule check_sample
  exact ⟨hnumeric, m, hm, toModule_refines hnumeric hm⟩

end Program

end TinyC
