import TinyC.Proofs.Lowering.Allocation
import TinyC.Proofs.Lowering.Regions
import TinyC.Proofs.Lowering.Simulation

/-!
# Lowering of statements

`Lowers` says all there is to say about lowering a piece of a program: it fails as the check of the
piece does, with the same error, and where it succeeds it goes on at an open block, has finished the
blocks it made, and what it emitted does what the piece means, uses slots as the piece uses names,
and is a region of control flow. Every construct is shown to pass this on from its parts.
-/

namespace TinyC

open Ir Lowering LowerM BuildM

/-- Lowering has got from one state to another. Runs between them do what `R` says if the constants
are as `N` says, and slots are made and used as `F` says. -/
structure Lowered (N : Prop) (R : Primitives → Store → Store → Prop) (F : Flow)
    (σ σ' : Lowering) : Prop where
  advances : Advances σ σ'
  simulates : N → ∀ I P, Image.Holds I σ' → Simulates I P (R P) σ σ'
  traces : σ.Invariant → ∀ x s, σ'.symbols.Owns x s → Traces F x s σ σ'
  connects : Connects σ σ'

theorem Lowered.seq {N N' : Prop} {R R' : Primitives → Store → Store → Prop} {F F' : Flow}
    {σ σ' σ'' : Lowering} (hσ : σ.Open) (h : Lowered N R F σ σ') (h' : Lowered N' R' F' σ' σ'') :
    Lowered (N ∧ N') (fun P S S' => ∃ S₁, R P S S₁ ∧ R' P S₁ S') (F.seq F') σ σ'' where
  advances := h.advances.trans h'.advances
  simulates hN I P hI :=
    (h.simulates hN.1 I P (hI.of_reach h'.advances.reach)).seq (h'.simulates hN.2 I P hI)
  traces hinv x s hs :=
    (h.traces hinv x s (hs.mono h'.advances.reach.symbols_le)).seq
      (h'.traces (hinv.of_reach h.advances.reach) x s hs)
  connects := h.connects.seq h'.connects hσ h.advances.opened

/-- A step of lowering fails at the first mention that the rules do not allow, and otherwise emits
what `R` and `F` say. -/
def Lowers (x : LowerM Unit) (mentions : List Mention) (N : Prop)
    (R : Primitives → Store → Store → Prop) (F : Flow) : Prop :=
  ∀ σ : Lowering, σ.Open →
    Follows (σ.scope.allowAll mentions) x σ fun Γ _ σ' => Γ = σ'.scope ∧ Lowered N R F σ σ'

namespace Lowers

variable {x y : LowerM Unit} {mentions mentions' : List Mention} {N N' : Prop}
  {R R' : Primitives → Store → Store → Prop} {F F' : Flow}

theorem pure : Lowers (Pure.pure ()) [] N (fun _ S S' => S' = S) .none :=
  fun σ hσ => ⟨(), σ, rfl, rfl, .refl hσ, fun _ _ _ _ => .refl σ, fun _ _ _ _ => .refl σ, .refl σ⟩

theorem seq (hx : Lowers x mentions N R F) (hy : Lowers y mentions' N' R' F') :
    Lowers (do x; y) (mentions ++ mentions') (N ∧ N')
      (fun P S S' => ∃ S₁, R P S S₁ ∧ R' P S₁ S') (F.seq F') := by
  intro σ hσ
  rw [Scope.allowAll_append]
  refine (hx σ hσ).bind ?_
  rintro _ - σ₁ ⟨rfl, h₁⟩
  refine (hy σ₁ h₁.advances.opened).mono ?_
  rintro Γ - σ₂ ⟨hΓ, h₂⟩
  exact ⟨hΓ, h₁.seq hσ h₂⟩

end Lowers

/-! ## Declarations and assignments -/

/-- An expression is stored in a variable. -/
theorem Expr.lowerInto_lowered (e : Expr) {σ : Lowering} (hσ : σ.Open) {x : String} {a : Symbol}
    (hx : σ.symbols.lookup? x = some a) :
    Follows (σ.scope.allowAll e.mentions) (e.lowerInto a.slot) σ fun Γ _ σ' => Γ = σ'.scope ∧
      Lowered e.Numeric
        (fun P S S' => ∃ w, e.eval P S = some w ∧ S' = S.set x (w.convert a.ty))
        (e.flow.seq (.use x)) σ σ' := by
  refine (e.lowerInto_follows hσ a.slot).mono ?_
  rintro _ - _ ⟨rfl, v, code, h, rfl⟩
  have hopen := hσ.compute code
  have hfits : (Instr.store v a.slot).Fits (σ.compute code).HasSlot
      (σ.compute code).builder.instrs (σ.compute code).builder.temporaries :=
    ⟨h.ty_eq, by simpa [Instr.operands] using! h.live, by
      simpa [Instr.slot?] using! ⟨x, a, hx, rfl⟩⟩
  refine ⟨rfl, (Advances.compute hσ h.computes).trans (.store hopen hfits), ?_, ?_, ?_⟩
  · intro hnum I P hI
    exact .store hσ (hI.symbols_le x a hx) h hnum hI
  · intro _ y s hs
    exact (h.traces hσ hs).seq (.store hopen (hs x a hx) v)
  · exact (hσ.connects_compute code).seq (hopen.connects_store v a.slot) hσ hopen

theorem LowerM.declare_follows (name : String) (ty : Ty) {σ : Lowering} (hσ : σ.Open) :
    Follows (σ.scope.allow (.declare name ty)) (LowerM.declare name ty) σ fun Γ slot σ' =>
      slot = σ.builder.nextSlot name ty.slotTy ∧ σ' = σ.declare name ty ∧ Γ = σ'.scope ∧
        Lowered True (fun _ S S' => S' = S) (.declare name) σ σ' := by
  simp only [Scope.allow, σ.lookup_scope]
  cases hname : σ.symbols.lookup? name with
  | some existing => exact ⟨σ, declare_taken hname ty⟩
  | none =>
    refine ⟨_, _, declare_open hσ hname ty, rfl, rfl, rfl, ?_, ?_, ?_, ?_⟩
    · exact .declare hσ hname ty
    · exact fun _ I P hI => .declare hσ name ty hI
    · exact fun _ x s hs => .declare hσ (hs name _ (lookup?_declare σ name ty))
    · exact hσ.connects_declare name ty

theorem Decl.lower_lowers (d : Decl) :
    Lowers d.lower d.mentions d.Numeric (fun P => d.Runs P) d.flow := by
  intro σ hσ
  rw [Decl.mentions, Scope.allowAll_cons]
  refine (declare_follows d.name d.ty hσ).bind ?_
  rintro _ _ _ ⟨rfl, rfl, rfl, hdeclared⟩
  cases hinit : d.initial with
  | none =>
    refine ⟨(), _, rfl, rfl, hdeclared.advances, fun _ I P hI => ?_, fun hinv x s hs => ?_,
      hdeclared.connects⟩
    · refine (hdeclared.simulates trivial I P hI).congr fun st S' => ?_
      simp only [Decl.Runs, hinit]
    · simp only [Decl.flow, hinit]
      exact (hdeclared.traces hinv x s hs).seq (.refl _)
  | some e =>
    rw [Option.toList_some, List.flatMap_singleton]
    refine (e.lowerInto_lowered hdeclared.advances.opened (lookup?_declare σ d.name d.ty)).mono ?_
    rintro _ - σ' ⟨hscope, hinto⟩
    -- The variable is declared before its initial value is lowered, and may occur in it.
    have hseq := hdeclared.seq hσ hinto
    refine ⟨hscope, hseq.advances, fun hnum I P hI => ?_, fun hinv x s hs => ?_, hseq.connects⟩
    · refine (hseq.simulates ⟨trivial, hnum e hinit⟩ I P hI).congr fun st S' => ?_
      simp only [Decl.Runs, hinit, exists_eq_left]
    · simp only [Decl.flow, hinit]
      rw [← Flow.declare_seq_use]
      exact hseq.traces hinv x s hs

theorem Decl.lowerAll_lowers (decls : List Decl) :
    Lowers (Decl.lowerAll decls) (decls.flatMap Decl.mentions) (∀ d ∈ decls, d.Numeric)
      (fun P => Decl.RunsAll P decls) (Decl.flowAll decls) := by
  induction decls with
  | nil => exact .pure
  | cons d decls ih =>
    rw [List.forall_mem_cons, List.flatMap_cons]
    exact d.lower_lowers.seq ih

theorem Assign.lower_lowers (a : Assign) :
    Lowers a.lower a.mentions a.value.Numeric (fun P => a.Runs P) a.flow := by
  intro σ hσ
  simp only [Assign.mentions, Scope.allowAll_cons, Scope.allow, σ.lookup_scope]
  refine .step (a := σ) rfl ?_
  cases hname : σ.symbols.lookup? a.name with
  | none => exact ⟨σ, rfl⟩
  | some symbol =>
    refine (a.value.lowerInto_lowered hσ hname).mono ?_
    rintro _ - σ' ⟨hscope, hinto⟩
    refine ⟨hscope, hinto.advances, fun hnum I P hI => ?_, hinto.traces,
      hinto.connects⟩
    refine (hinto.simulates hnum I P hI).congr fun st S' => ?_
    -- The type that the old value has is the declared one.
    have hle := (hI.of_reach hinto.advances.reach).symbols_le
    obtain ⟨old, hold, hty⟩ := I.view_eq_some (hle a.name symbol hname) st
    simp only [Assign.Runs, hold, Option.some.injEq, exists_and_left, exists_eq_left', hty]

/-! ## Blocks and jumps -/

namespace LowerM

variable {α : Type} {σ : Lowering} {i j k : Nat} {blk blk' : Block}

theorem appendBlock_run {n : Nat} (h : σ.size = n) {base : String} :
    (liftM (appendBlock base) : LowerM BlockId) σ = .ok ⟨n⟩ (σ.addBlock base) := by
  subst h
  rfl

theorem branch_leave (hσ : σ.Open) (hi : σ.builder.function.blocks[i]? = some blk) (j : Nat)
    (x : LowerM α) :
    (do branch ⟨i⟩; moveTo ⟨j⟩; x : LowerM α) σ = x (σ.leave (.br blk.name) j) := by
  have hname : σ.builder.blockName? ⟨i⟩ = some blk.name := by simp [Builder.blockName?, hi]
  exact bind_ok (lift_ok (branch_open hσ hname)) _

theorem condBranch_leave (hσ : σ.Open) (v : Value)
    (hi : σ.builder.function.blocks[i]? = some blk)
    (hj : σ.builder.function.blocks[j]? = some blk') (k : Nat) (x : LowerM α) :
    (do condBranch v ⟨i⟩ ⟨j⟩; moveTo ⟨k⟩; x : LowerM α) σ =
      x (σ.leave (.condBr v blk.name blk'.name) k) := by
  have hname : σ.builder.blockName? ⟨i⟩ = some blk.name := by simp [Builder.blockName?, hi]
  have hname' : σ.builder.blockName? ⟨j⟩ = some blk'.name := by simp [Builder.blockName?, hj]
  exact bind_ok (lift_ok (condBranch_open hσ v hname hname')) _

end LowerM

theorem Follows.assoc {α β : Type} {c : Checked β} {x y z : LowerM Unit} {w : LowerM α}
    {σ : Lowering} {Q : β → α → Lowering → Prop}
    (h : Follows c ((do x; y; z) >>= fun _ => w) σ Q) : Follows c (do x; y; z; w) σ Q := by
  simpa only [bind_assoc] using h

theorem Image.Holds.close {I : Image} {σ : Lowering} {t : Terminator} {j : Nat}
    (hI : I.Holds (σ.leave t j)) : I.Holds (σ.close t) :=
  ⟨hI.grows, hI.symbols_le⟩

/-- Behind what has been lowered control jumps to the start of a block. -/
theorem Lowered.jump {N : Prop} {R : Primitives → Store → Store → Prop} {F : Flow}
    {σ σ' τ : Lowering} (h : Lowered N R F σ σ') (hN : N) {I : Image} {P : Primitives}
    {blk : Block} {j k : Nat} (hat : τ.builder.At k blk) (hempty : blk.instrs = [])
    (hI : I.Holds (σ'.leave (.br blk.name) j)) (hI' : I.Holds τ) : Simulates I P (R P) σ τ := by
  have hopen := h.advances.opened
  refine (h.simulates hN I P (hI.close.of_close hopen)).passes fun st => ?_
  exact Image.passes_of_next? hopen hI.close rfl hat hempty hI'

namespace Lowers

variable {x y : LowerM Unit} {mentions mentions' : List Mention} {N N' : Prop}
  {R R' : Primitives → Store → Store → Prop} {F F' : Flow}

/-- A body, the jump behind it to the block of index `k`, and the move to the block of index `j`. -/
theorem arm (hx : Lowers x mentions N R F) {σ : Lowering} (hσ : σ.Open) {k : Nat} {blk : Block}
    (hk : σ.builder.function.blocks[k]? = some blk) (j : Nat) :
    Follows (σ.scope.allowAll mentions) (do x; fallInto ⟨k⟩; moveTo ⟨j⟩) σ fun Γ _ σ' => ∃ σ₁,
      σ' = σ₁.leave (.br blk.name) j ∧ Γ = σ'.scope ∧ Lowered N R F σ σ₁ ∧ Reach σ₁ σ' := by
  refine (hx σ hσ).andThen ?_
  rintro Γ - σ₁ ⟨hΓ, h₁⟩
  -- The body may have added to the block, but its name is the one it was made with.
  obtain ⟨blk₁, hk₁, hgrows⟩ := h₁.advances.reach.grows k blk hk
  have hname : σ₁.builder.blockName? ⟨k⟩ = some blk.name := by
    simp [Builder.blockName?, hk₁, hgrows.name]
  have hreach := h₁.advances.opened.reach_br hk₁ j
  rw [hgrows.name] at hreach
  refine ⟨(), σ₁.leave (.br blk.name) j, ?_, σ₁, rfl, hΓ, h₁, hreach⟩
  rw [bind_ok (lift_ok (fallInto_open h₁.advances.opened hname))]
  rfl

theorem ifThen {cond : Expr} (hx : Lowers x mentions N R F) :
    Lowers (do Ir.ifThen (← cond.lowerTruth) x) (cond.mentions ++ mentions)
      (cond.Numeric ∧ N)
      (fun P S S' => cond.test P S = some true ∧ R P S S' ∨ cond.test P S = some false ∧ S' = S)
      (cond.flow.seq F.maybe) := by
  intro σ hσ
  rw [Scope.allowAll_append]
  refine (cond.lowerTruth_follows hσ).bind ?_
  rintro _ v _ ⟨rfl, code, hcond, rfl⟩
  have hadv := Advances.compute hσ hcond.computes
  have hext := hadv.opened.extends_two (show Plain "if.then" by decide)
    (show Plain "if.end" by decide)
  refine .step rfl (.step (appendBlock_run (size_addBlock _ _)) ?_)
  set σ₁ := ((σ.compute code).addBlock "if.then").addBlock "if.end"
  set n := (σ.compute code).size
  set thenBlock := (σ.compute code).newBlock "if.then"
  set endBlock := ((σ.compute code).addBlock "if.then").newBlock "if.end"
  have hthen : σ₁.builder.Pending n thenBlock := hext.pending_new (k := 0) rfl
  have hend : σ₁.builder.Pending (n + 1) endBlock := hext.pending_new (k := 1) rfl
  refine .of_run (condBranch_leave hext.opened v hthen.block hend.block n _) ?_
  set t := Terminator.condBr v thenBlock.name endBlock.name
  have hpend₂ := hext.opened.pending_leave t n
  -- The block behind is still to be filled when the body is lowered, and when it has been.
  have hend₂ := (hpend₂ _ _).mpr ⟨hend, by omega⟩
  have hreach₂ := hext.opened.reach_condBr (hext.live _ hcond.live) hcond.ty_eq hthen.block
    hend.block n
  refine (hx.arm (hext.opened.leave hthen t) hend₂.block (n + 1)).mono ?_
  rintro Γ - _ ⟨σ₃, rfl, hΓ, h₃, hreach₃⟩
  have hend₃ := (h₃.advances.pending _ _).mpr hend₂
  have hpend₃ := h₃.advances.opened.pending_leave (.br endBlock.name) (n + 1)
  refine ⟨hΓ, hadv.trans (hext.advances ?_ (h₃.advances.opened.leave hend₃ _) ?_), ?_, ?_, ?_⟩
  · exact hreach₂.trans (h₃.advances.reach.trans hreach₃)
  · intro j blk
    rw [hpend₃, h₃.advances.pending, hpend₂, and_assoc]
    refine and_congr_right fun _ => ?_
    simp only [List.length_cons, List.length_nil]
    omega
  · rintro ⟨hnum, hN⟩ I P hI
    obtain ⟨i, cur, hat, hcur⟩ := hσ
    have hI₂ := hI.of_reach (h₃.advances.reach.trans hreach₃)
    have hat₃ := h₃.advances.opened.at_leave hend₃ (.br endBlock.name)
    have hbranch : Branches I P (cond.test P) σ (σ₁.leave t n)
        (σ₃.leave (.br endBlock.name) (n + 1)) :=
      .of_yields hat (hext.at_current (hat.compute code)) hcur hcond hnum hI₂.symbols_le hI₂.close
        (hext.opened.at_leave hthen t) rfl hI₂ hat₃ rfl hI
    exact hbranch.ite (h₃.jump hN hat₃ rfl hI hI) (.refl _)
  · intro hinv y s hs
    have hinv₁ := hinv.of_reach hadv.reach
    have hinv₂ := (hinv₁.of_reach hext.reach).of_reach hreach₂
    have hs₂ := hs.mono h₃.advances.reach.symbols_le
    refine (hcond.traces hσ hs₂).seq (.ifThen (hadv.opened.appends_two hinv₁ ?_ ?_)
      (hext.opened.jumps_condBr (hinv₁.of_reach hext.reach) hthen rfl (hthen.admits rfl)
        (hend.admits rfl) v)
      (h₃.traces hinv₂ y s hs)
      (h₃.advances.opened.jumps_br (hinv₂.of_reach h₃.advances.reach) hend₃ rfl
        (hend₃.admits rfl)))
    · decide
    · decide
  · refine (hσ.connects_compute code).seq (.ifThen (hadv.opened.adds_two _ _)
      (hext.opened.departs hthen t) h₃.connects ?_) hσ hadv.opened
    exact h₃.advances.opened.departs hend₃ (.br endBlock.name)

theorem ifElse {cond : Expr} (hx : Lowers x mentions N R F) (hy : Lowers y mentions' N' R' F') :
    Lowers (do Ir.ifElse (← cond.lowerTruth) x y) (cond.mentions ++ (mentions ++ mentions'))
      (cond.Numeric ∧ N ∧ N')
      (fun P S S' =>
        cond.test P S = some true ∧ R P S S' ∨ cond.test P S = some false ∧ R' P S S')
      (cond.flow.seq (F.either F')) := by
  intro σ hσ
  rw [Scope.allowAll_append]
  refine (cond.lowerTruth_follows hσ).bind ?_
  rintro _ v _ ⟨rfl, code, hcond, rfl⟩
  have hadv := Advances.compute hσ hcond.computes
  have hext := hadv.opened.extends_three (show Plain "if.then" by decide)
    (show Plain "if.else" by decide) (show Plain "if.end" by decide)
  refine .step rfl (.step (appendBlock_run (size_addBlock _ _))
    (.step (appendBlock_run (by rw [size_addBlock, size_addBlock])) ?_))
  set σ₁ := (((σ.compute code).addBlock "if.then").addBlock "if.else").addBlock "if.end"
  set n := (σ.compute code).size
  set thenBlock := (σ.compute code).newBlock "if.then"
  set elseBlock := ((σ.compute code).addBlock "if.then").newBlock "if.else"
  set endBlock := (((σ.compute code).addBlock "if.then").addBlock "if.else").newBlock "if.end"
  have hthen : σ₁.builder.Pending n thenBlock := hext.pending_new (k := 0) rfl
  have helse : σ₁.builder.Pending (n + 1) elseBlock := hext.pending_new (k := 1) rfl
  have hend : σ₁.builder.Pending (n + 1 + 1) endBlock := hext.pending_new (k := 2) rfl
  refine .of_run (condBranch_leave hext.opened v hthen.block helse.block n _) ?_
  set t := Terminator.condBr v thenBlock.name elseBlock.name
  have hpend₂ := hext.opened.pending_leave t n
  have helse₂ := (hpend₂ _ _).mpr ⟨helse, by omega⟩
  have hend₂ := (hpend₂ _ _).mpr ⟨hend, by omega⟩
  have hreach₂ := hext.opened.reach_condBr (hext.live _ hcond.live) hcond.ty_eq hthen.block
    helse.block n
  rw [Scope.allowAll_append]
  refine .assoc ((hx.arm (hext.opened.leave hthen t) hend₂.block (n + 1)).bind ?_)
  rintro _ - _ ⟨σ₃, rfl, rfl, h₃, hreach₃⟩
  have helse₃ := (h₃.advances.pending _ _).mpr helse₂
  have hpend₃ := h₃.advances.opened.pending_leave (.br endBlock.name) (n + 1)
  have hend₃ := (hpend₃ _ _).mpr ⟨(h₃.advances.pending _ _).mpr hend₂, by omega⟩
  have hopen₃ := h₃.advances.opened.leave helse₃ (.br endBlock.name)
  refine (hy.arm hopen₃ hend₃.block (n + 1 + 1)).mono ?_
  rintro Γ - _ ⟨σ₄, rfl, hΓ, h₄, hreach₄⟩
  have hend₄ := (h₄.advances.pending _ _).mpr hend₃
  have hpend₄ := h₄.advances.opened.pending_leave (.br endBlock.name) (n + 1 + 1)
  refine ⟨hΓ, hadv.trans (hext.advances ?_ (h₄.advances.opened.leave hend₄ _) ?_), ?_, ?_, ?_⟩
  · exact (hreach₂.trans (h₃.advances.reach.trans hreach₃)).trans (h₄.advances.reach.trans hreach₄)
  · intro j blk
    rw [hpend₄, h₄.advances.pending, hpend₃, h₃.advances.pending, hpend₂, and_assoc, and_assoc]
    refine and_congr_right fun _ => ?_
    simp only [List.length_cons, List.length_nil]
    omega
  · rintro ⟨hnum, hN, hN'⟩ I P hI
    obtain ⟨i, cur, hat, hcur⟩ := hσ
    have hI₃ := hI.of_reach (h₄.advances.reach.trans hreach₄)
    have hI₂ := hI₃.of_reach (h₃.advances.reach.trans hreach₃)
    have hbranch : Branches I P (cond.test P) σ (σ₁.leave t n)
        (σ₃.leave (.br endBlock.name) (n + 1)) :=
      .of_yields hat (hext.at_current (hat.compute code)) hcur hcond hnum hI₂.symbols_le hI₂.close
        (hext.opened.at_leave hthen t) rfl hI₂ (h₃.advances.opened.at_leave helse₃ _) rfl hI₃
    -- Both arms meet at the start of the last block.
    have hmeet := h₄.advances.opened.at_leave hend₄ (.br endBlock.name)
    exact hbranch.ite (h₃.jump hN hmeet rfl hI₃ hI) (h₄.jump hN' hmeet rfl hI hI)
  · intro hinv y s hs
    have hinv₁ := hinv.of_reach hadv.reach
    have hinv₂ := (hinv₁.of_reach hext.reach).of_reach hreach₂
    have hinv₃ := hinv₂.of_reach h₃.advances.reach
    have hinv₄ := hinv₃.of_reach hreach₃
    have hs₃ := hs.mono h₄.advances.reach.symbols_le
    have hs₂ := hs₃.mono h₃.advances.reach.symbols_le
    refine (hcond.traces hσ hs₂).seq (.ifElse (hadv.opened.appends_three hinv₁ ?_ ?_ ?_)
      (hext.opened.jumps_condBr (hinv₁.of_reach hext.reach) hthen rfl (hthen.admits rfl)
        (helse.admits rfl) v)
      (h₃.traces hinv₂ y s hs₃)
      (h₃.advances.opened.jumps_br hinv₃ helse₃ rfl
        (((h₃.advances.pending _ _).mpr hend₂).admits rfl))
      (h₄.traces hinv₄ y s hs)
      (h₄.advances.opened.jumps_br (hinv₄.of_reach h₄.advances.reach) hend₄ rfl
        (hend₄.admits rfl)))
    · decide
    · decide
    · decide
  · refine (hσ.connects_compute code).seq (.ifElse (hadv.opened.adds_three _ _ _)
      (hext.opened.departs hthen t) h₃.connects
      (h₃.advances.opened.departs helse₃ (.br endBlock.name)) h₄.connects hopen₃ ?_) hσ hadv.opened
    exact h₄.advances.opened.departs hend₄ (.br endBlock.name)

theorem loop {kind : String} (hkind : Plain kind) {cond : Expr} (hx : Lowers x mentions N R F) :
    Lowers (LowerM.loop kind cond x) (cond.mentions ++ mentions) (cond.Numeric ∧ N)
      (fun P => Iterates (cond.test P) (R P)) (cond.flow.seq F.maybe) := by
  intro σ hσ
  have hheadName : Plain (kind ++ ".head") := hkind.append (by decide)
  have hbodyName : Plain (kind ++ ".body") := hkind.append (by decide)
  have hexitName : Plain (kind ++ ".exit") := hkind.append (by decide)
  have hext := hσ.extends_three hheadName hbodyName hexitName
  refine .step rfl (.step (appendBlock_run (size_addBlock _ _))
    (.step (appendBlock_run (by rw [size_addBlock, size_addBlock])) ?_))
  set σ₁ := ((σ.addBlock (kind ++ ".head")).addBlock (kind ++ ".body")).addBlock (kind ++ ".exit")
  set n := σ.size
  set headBlock := σ.newBlock (kind ++ ".head")
  set bodyBlock := (σ.addBlock (kind ++ ".head")).newBlock (kind ++ ".body")
  set exitBlock := ((σ.addBlock (kind ++ ".head")).addBlock (kind ++ ".body")).newBlock
    (kind ++ ".exit")
  have hhead : σ₁.builder.Pending n headBlock := hext.pending_new (k := 0) rfl
  have hbody : σ₁.builder.Pending (n + 1) bodyBlock := hext.pending_new (k := 1) rfl
  have hexit : σ₁.builder.Pending (n + 1 + 1) exitBlock := hext.pending_new (k := 2) rfl
  refine .of_run (branch_leave hext.opened hhead.block n _) ?_
  have hopen₂ := hext.opened.leave hhead (.br headBlock.name)
  have hpend₂ := hext.opened.pending_leave (.br headBlock.name) n
  have hat₂ := hext.opened.at_leave hhead (.br headBlock.name)
  have hreach₂ := hext.opened.reach_br hhead.block n
  set σ₂ := σ₁.leave (.br headBlock.name) n
  rw [Scope.allowAll_append]
  refine (cond.lowerTruth_follows hopen₂).bind ?_
  rintro _ v _ ⟨rfl, code, hcond, rfl⟩
  have hadv := Advances.compute hopen₂ hcond.computes
  have hbody₃ := (hadv.pending _ _).mpr ((hpend₂ _ _).mpr ⟨hbody, by omega⟩)
  have hexit₃ := (hadv.pending _ _).mpr ((hpend₂ _ _).mpr ⟨hexit, by omega⟩)
  refine .of_run (condBranch_leave hadv.opened v hbody₃.block hexit₃.block (n + 1) _) ?_
  set t := Terminator.condBr v bodyBlock.name exitBlock.name
  have hpend₄ := hadv.opened.pending_leave t (n + 1)
  have hexit₄ := (hpend₄ _ _).mpr ⟨hexit₃, by omega⟩
  have hreach₄ := hadv.opened.reach_condBr hcond.live hcond.ty_eq hbody₃.block hexit₃.block
    (n + 1)
  -- The head is sealed by now and holds the test. The body jumps back to it by its name.
  have hhead₄ := ((hat₂.compute code).close t).block
  refine (hx.arm (hadv.opened.leave hbody₃ t) hhead₄ (n + 1 + 1)).mono ?_
  rintro Γ - _ ⟨σ₅, rfl, hΓ, h₅, hreach₅⟩
  have hexit₅ := (h₅.advances.pending _ _).mpr hexit₄
  have hpend₅ := h₅.advances.opened.pending_leave (.br headBlock.name) (n + 1 + 1)
  refine ⟨hΓ, hext.advances ?_ (h₅.advances.opened.leave hexit₅ _) ?_, ?_, ?_, ?_⟩
  · exact ((hreach₂.trans hadv.reach).trans hreach₄).trans (h₅.advances.reach.trans hreach₅)
  · intro j blk
    rw [hpend₅, h₅.advances.pending, hpend₄, hadv.pending, hpend₂, and_assoc, and_assoc]
    refine and_congr_right fun _ => ?_
    simp only [List.length_cons, List.length_nil]
    omega
  · rintro ⟨hnum, hN⟩ I P hI
    obtain ⟨i, cur, hat, -⟩ := hσ
    have hI₄ := hI.of_reach (h₅.advances.reach.trans hreach₅)
    have hI₂ := hI₄.of_reach (hadv.reach.trans hreach₄)
    have hbranch : Branches I P (cond.test P) σ₂ ((σ₂.compute code).leave t (n + 1))
        (σ₅.leave (.br headBlock.name) (n + 1 + 1)) :=
      .of_yields hat₂ (hat₂.compute code) rfl hcond hnum hI₂.symbols_le hI₄.close
        (hadv.opened.at_leave hbody₃ t) rfl hI₄ (h₅.advances.opened.at_leave hexit₅ _) rfl hI
    have hnext : ∀ st, (Terminator.br headBlock.name).next? st = some headBlock.name := fun _ => rfl
    have henter := (Simulates.stay hat (hext.at_current hat) (hI₂.of_reach hreach₂)).passes
      fun st => Image.passes_of_next? (P := P) hext.opened hI₂.close (hnext st) hat₂ rfl hI₂
    -- The body goes back to where the test begins, so the branch and the body make up a loop.
    have hback : Simulates I P (R P) _ σ₂ := h₅.jump hN hat₂ rfl hI hI₂
    refine (henter.seq (hbranch.loop hback)).congr fun st S' => ?_
    simp only [exists_eq_left]
  · intro hinv y s hs
    have hinv₁ := hinv.of_reach hext.reach
    have hinv₂ := hinv₁.of_reach hreach₂
    have hinv₃ := hinv₂.of_reach hadv.reach
    have hinv₄ := hinv₃.of_reach hreach₄
    have happends : Appends s _ σ σ₁ :=
      hσ.appends_three hinv hheadName hbodyName hexitName
    have henter : Jumps s _ _ σ₁ σ₂ := hext.opened.jumps_br hinv₁ hhead rfl (hhead.admits rfl)
    have htest := hcond.traces hopen₂ (hs.mono h₅.advances.reach.symbols_le)
    have hbranch : Jumps s _ _ _ ((σ₂.compute code).leave t (n + 1)) :=
      hadv.opened.jumps_condBr hinv₃ hbody₃ rfl (hbody₃.admits rfl) (hexit₃.admits rfl) v
    have hbody := h₅.traces hinv₄ y s hs
    -- The head is no longer empty, but whatever comes back to it has been there.
    have hback := Traces.skips_head happends henter htest hbranch hbody
    refine .loop (cond.not_declares y) happends henter htest hbranch hbody ?_
    exact h₅.advances.opened.jumps_br (hinv₄.of_reach h₅.advances.reach) hexit₅ rfl (.inr hback)
  · refine .loop (hσ.adds_three _ _ _) (hext.opened.departs hhead (.br headBlock.name))
      (hopen₂.connects_compute code) hopen₂ (hadv.opened.departs hbody₃ t) h₅.connects ?_
    exact h₅.advances.opened.departs hexit₅ (.br headBlock.name)

end Lowers

/-! ## Statements and programs -/

namespace Stmt

mutual

theorem lower_lowers : ∀ s : Stmt,
    Lowers s.lower s.mentions s.Numeric (fun P => s.Runs P) s.flow
  | .decl d => by
    simp only [lower, mentions, Numeric, Runs, flow]
    exact d.lower_lowers
  | .assign a => by
    simp only [lower, mentions, Numeric, Runs, flow]
    exact a.lower_lowers
  | .ifThen cond body => by
    simp only [lower, mentions, Numeric, Runs, flow]
    exact (lowerAll_lowers body).ifThen
  | .ifElse cond thenBody elseBody => by
    simp only [lower, mentions, Numeric, Runs, flow]
    exact (lowerAll_lowers thenBody).ifElse (lowerAll_lowers elseBody)
  | .while_ cond body => by
    simp only [lower, mentions, Numeric, Runs, flow]
    exact (lowerAll_lowers body).loop (by decide)
  | .for_ init cond step body => by
    simp only [lower, mentions, Numeric, Runs, flow]
    exact init.lower_lowers.seq (((lowerAll_lowers body).seq step.lower_lowers).loop (by decide))
  | .block body => by
    simp only [lower, mentions, Numeric, Runs, flow]
    exact lowerAll_lowers body
  | .empty => by
    simp only [lower, mentions, Numeric, Runs, flow]
    exact .pure

theorem lowerAll_lowers : ∀ body : List Stmt,
    Lowers (lowerAll body) (mentionsAll body) (NumericAll body) (fun P => RunsAll P body)
      (flowAll body)
  | [] => by
    simp only [lowerAll, mentionsAll, NumericAll, RunsAll, flowAll]
    exact .pure
  | s :: body => by
    simp only [lowerAll, mentionsAll, NumericAll, RunsAll, flowAll]
    exact (lower_lowers s).seq (lowerAll_lowers body)

end

end Stmt

/-- The state in which a program begins, at its first block. -/
def Lowering.start (name : String) : Lowering := ((Lowering.new name).addBlock "entry").moveTo 0

theorem Lowering.at_start (name : String) :
    (start name).builder.At 0 ((Lowering.new name).newBlock "entry") :=
  ⟨rfl, rfl⟩

theorem Lowering.not_pending_start (name : String) (j : Nat) (blk : Block) :
    ¬(start name).builder.Pending j blk := by
  intro h
  obtain rfl : j = 0 := Nat.lt_one_iff.mp h.lt
  exact h.not_current rfl

theorem Program.lower_follows (p : Program) :
    Follows p.check p.lower (.new p.name) fun Γ _ σ' => ∃ σ,
      σ' = σ.close (.ret (some (.int 0))) ∧ Γ = σ'.scope ∧
        Lowered p.Numeric (fun P => p.Runs P) p.flow (.start p.name) σ := by
  have hbody := (Decl.lowerAll_lowers p.declarations).seq (Stmt.lowerAll_lowers p.statements)
  have hopen : (Lowering.start p.name).Open := ⟨0, _, Lowering.at_start p.name, rfl⟩
  have hlower : p.lower (.new p.name) =
      ((do Decl.lowerAll p.declarations; Stmt.lowerAll p.statements) >>= fun _ =>
        liftM (ret (some (.int 0))) : LowerM Unit) (.start p.name) := by
    rw [bind_assoc]
    rfl
  refine .of_run hlower ((hbody _ hopen).andThen ?_)
  rintro Γ - σ ⟨hΓ, hlowered⟩
  exact ⟨(), _, lift_ok (terminate_open hlowered.advances.opened _), σ, rfl, hΓ, hlowered⟩

end TinyC
