import TinyC.Proofs.Ir.Alike
import TinyC.Proofs.Ir.Conditionals
import TinyC.Proofs.Ir.Refusals

/-!
# Structured building

Functions that are built from instructions, returns and conditionals alone, without moving the
cursor or branching by hand. An arm of a conditional may return early, at any depth; what comes
behind a return in the same arm is refused.

The argument is about blocks that wait to be filled. Commands that succeed start at an open block
and leave no block behind that they have made or begun and not finished: they are `Tidy`. Main
statement: if all commands succeed and the last one returns, the verifier accepts the function, and
every conditional has left the cursor at the block behind it, with each arm ending in its own return
or in a branch to that block.
-/

namespace TinyC.Ir

/-! ## Blocks that wait -/

theorem Function.Grows.length_le {f g : Function} (h : f.Grows g) :
    f.blocks.length ≤ g.blocks.length := by
  by_contra hlt
  obtain ⟨blk, hblk⟩ : ∃ blk, f.blocks[g.blocks.length]? = some blk :=
    ⟨_, List.getElem?_eq_getElem (by omega)⟩
  obtain ⟨blk', hblk', -⟩ := h _ blk hblk
  simp at hblk'

namespace Builder

variable {b b₁ b₂ b' : Builder} {t : Terminator} {i j : Nat} {blk cur : Block}

/-- Code has been built from an open block to the end of a block, which is sealed as `t?` says. No
block is left behind that has been made or begun and not finished. -/
structure Completes (b b' : Builder) (t? : Option Terminator) : Prop where
  ends : ∃ i blk, b'.At i blk ∧ blk.terminator = t?
  pending : ∀ j blk, b'.Pending j blk ↔ b.Pending j blk
  grows : b.function.Grows b'.function

namespace Completes

variable {t? t?' : Option Terminator}

theorem refl (h : b.Open) : b.Completes b none := ⟨h, fun _ _ => .rfl, .refl _⟩

theorem trans (h : b.Completes b₁ t?) (h' : b₁.Completes b₂ t?') : b.Completes b₂ t?' :=
  ⟨h'.ends, fun j blk => (h'.pending j blk).trans (h.pending j blk), h.grows.trans h'.grows⟩

theorem append (h : b.Open) (code : List Instr) : b.Completes (b.append code) none :=
  ⟨h.append code, h.pending_append code, h.grows_append code⟩

theorem compute (h : b.Open) (code : List Instr) : b.Completes (b.compute code) none :=
  ⟨h.compute code, h.pending_compute code, h.grows_append code⟩

theorem allocate (h : b.Open) (base : String) (ty : Ty) : b.Completes (b.allocate base ty) none :=
  ⟨h.allocate base ty, h.pending_allocate base ty, h.grows_append _⟩

theorem close (h : b.Open) (t : Terminator) : b.Completes (b.close t) (some t) := by
  have hgrows := h.grows_close t
  obtain ⟨i, cur, hat, -⟩ := h
  exact ⟨⟨i, _, hat.close t, rfl⟩, hat.pending_modifyCurrent _, hgrows⟩

/-- Falling into a block that waits seals the current block, unless it is sealed. -/
theorem fallInto (h : b.Completes b₁ t?) {block : BlockId} (hend : b.Pending block.index blk)
    (hfall : BuildM.fallInto block b₁ = .ok () b₂) :
    b.Completes b₂ (some (t?.getD (.br blk.name))) ∧ b₂.current = b₁.current := by
  obtain ⟨i, cur, hat, hcur⟩ := h.ends
  cases t? with
  | some t =>
    have hsealed : b₁.isSealed := by simp [isSealed, hat.currentBlock?, hcur]
    rw [BuildM.fallInto_apply, if_pos hsealed] at hfall
    cases hfall
    exact ⟨h, rfl⟩
  | none =>
    have hopen : b₁.Open := ⟨i, cur, hat, hcur⟩
    have hname : b₁.blockName? block = some blk.name := by
      simp [blockName?, ((h.pending _ _).mpr hend).block]
    rw [BuildM.fallInto_open hopen hname] at hfall
    cases hfall
    exact ⟨h.trans (.close hopen _), modifyCurrent_current _ _⟩

end Completes

/-- From `b` on, new blocks have been appended of which those in `waiting` are still to be filled,
after what is built at the cursor. -/
structure Awaits (b b' : Builder) (waiting : List (Nat × Block)) : Prop where
  opened : b'.Open
  pending : ∀ j blk, b'.Pending j blk ↔ b.Pending j blk ∨ (j, blk) ∈ waiting
  beyond : ∀ w ∈ waiting, b.function.blocks.length ≤ w.1
  nodup : (waiting.map Prod.fst).Nodup
  grows : b.function.Grows b'.function

namespace Awaits

variable {waiting : List (Nat × Block)}

theorem refl (h : b.Open) : b.Awaits b [] where
  opened := h
  pending := by simp
  beyond := List.forall_mem_nil _
  nodup := List.nodup_nil
  grows := .refl _

theorem pending_of_mem (h : b.Awaits b' waiting) (hmem : (j, blk) ∈ waiting) : b'.Pending j blk :=
  (h.pending j blk).mpr (.inr hmem)

theorem addBlock (h : b.Awaits b' waiting) (base : String) :
    b.Awaits (b'.addBlock base)
      (waiting ++ [(b'.function.blocks.length, ⟨(b'.names.fresh base).1, [], none⟩)]) where
  opened := h.opened.addBlock base
  pending j blk := by
    rw [pending_addBlock h.opened.current_ne, h.pending, or_assoc]
    simp
  beyond := by
    simpa [or_imp, forall_and] using ⟨fun j blk => h.beyond (j, blk), h.grows.length_le⟩
  nodup := by
    rw [List.map_append, List.nodup_append_comm]
    refine List.nodup_cons.mpr ⟨fun hmem => ?_, h.nodup⟩
    obtain ⟨w, hw, heq⟩ := List.mem_map.mp hmem
    -- A block that waits has a place in the function, and the new one comes behind.
    exact absurd (h.pending_of_mem hw).lt (by omega)
  grows := h.grows.trans (grows_addBlock b' base)

/-- When the current block is finished, the cursor moves to the next block that waits. -/
theorem next (h : b.Awaits b₁ ((j, blk) :: waiting)) (h' : b₁.Completes b₂ (some t)) :
    b.Awaits (b₂.moveTo j) waiting where
  opened := by
    have hj := h.pending_of_mem (.head _)
    exact ⟨j, blk, Pending.at_moveTo ((h'.pending j blk).mpr hj), hj.opened⟩
  pending k blk' := by
    have hnodup := List.nodup_cons.mp h.nodup
    obtain ⟨i, cur, hat, hcur⟩ := h'.ends
    have hsealed : ∀ i blk, b₂.At i blk → blk.terminator ≠ none := by
      intro i' cur' hat'
      obtain ⟨-, rfl⟩ := hat'.unique hat
      simp [hcur]
    rw [pending_moveTo hsealed, h'.pending, h.pending]
    constructor
    · rintro ⟨hpending | hmem, hne⟩
      · exact .inl hpending
      · rcases List.mem_cons.mp hmem with heq | hmem
        · exact absurd (congrArg Prod.fst heq) hne
        · exact .inr hmem
    -- Blocks of `b` come before `j`, and the other ones that wait have other places.
    · rintro (hpending | hmem)
      · have hlt := hpending.lt
        have hle := h.beyond _ (.head _)
        exact ⟨.inl hpending, by dsimp only at hle; omega⟩
      · refine ⟨.inr (.tail _ hmem), ?_⟩
        rintro rfl
        exact hnodup.1 (List.mem_map.mpr ⟨_, hmem, rfl⟩)
  beyond w hw := h.beyond w (.tail _ hw)
  nodup := (List.nodup_cons.mp h.nodup).2
  grows := h.grows.trans h'.grows

theorem completes (h : b.Awaits b' []) : b.Completes b' none :=
  ⟨h.opened, by simpa using h.pending, h.grows⟩

end Awaits

theorem At.open_of_addBlock (h : b.At i cur) {base : String} (hopen : (b.addBlock base).Open) :
    b.Open := by
  obtain ⟨i', cur', hat, hcur⟩ := hopen
  obtain ⟨rfl, rfl⟩ := hat.unique (h.addBlock base)
  exact ⟨i', cur', h, hcur⟩

end Builder

namespace BuildM

open Builder

variable {b b₁ : Builder} {cond : Value} {endBlock elseBlock : BlockId} {i : Nat} {cur : Block}

theorem appendBlock_eq_ok {base : String} {block : BlockId}
    (h : appendBlock base b = .ok block b₁) :
    block = ⟨b.function.blocks.length⟩ ∧ b₁ = b.addBlock base := by
  cases h
  exact ⟨rfl, rfl⟩

theorem openIfThen_eq_ok (hat : b.At i cur) (h : openIfThen cond b = .ok endBlock b₁) :
    b.Open ∧ ∃ blk, b.Awaits b₁ [(endBlock.index, blk)] := by
  obtain ⟨_, _, happend, h⟩ := exists_of_bind_eq_ok h
  obtain ⟨rfl, rfl⟩ := appendBlock_eq_ok happend
  obtain ⟨_, _, happend, h⟩ := exists_of_bind_eq_ok h
  obtain ⟨rfl, rfl⟩ := appendBlock_eq_ok happend
  obtain ⟨_, _, hbranch, h⟩ := exists_of_bind_eq_ok h
  have hopen₂ := (Emission.condBranch cond _ _).opened hbranch
  obtain ⟨thenName, endName, -, -, rfl⟩ := condBranch_eq_ok hbranch
  cases h
  have hopen := hat.open_of_addBlock ((hat.addBlock _).open_of_addBlock hopen₂)
  have hawaits := ((Awaits.refl hopen).addBlock "if.then").addBlock "if.end"
  exact ⟨hopen, _, hawaits.next (.close hopen₂ _)⟩

theorem openIfElse_eq_ok (hat : b.At i cur)
    (h : openIfElse cond b = .ok (elseBlock, endBlock) b₁) :
    b.Open ∧ ∃ blk blk', b.Awaits b₁ [(elseBlock.index, blk), (endBlock.index, blk')] := by
  obtain ⟨_, _, happend, h⟩ := exists_of_bind_eq_ok h
  obtain ⟨rfl, rfl⟩ := appendBlock_eq_ok happend
  obtain ⟨_, _, happend, h⟩ := exists_of_bind_eq_ok h
  obtain ⟨rfl, rfl⟩ := appendBlock_eq_ok happend
  obtain ⟨_, _, happend, h⟩ := exists_of_bind_eq_ok h
  obtain ⟨rfl, rfl⟩ := appendBlock_eq_ok happend
  obtain ⟨_, _, hbranch, h⟩ := exists_of_bind_eq_ok h
  have hopen₃ := (Emission.condBranch cond _ _).opened hbranch
  obtain ⟨thenName, elseName, -, -, rfl⟩ := condBranch_eq_ok hbranch
  cases h
  have hopen₁ := ((hat.addBlock _).addBlock _).open_of_addBlock hopen₃
  have hopen := hat.open_of_addBlock ((hat.addBlock _).open_of_addBlock hopen₁)
  have hawaits := (((Awaits.refl hopen).addBlock "if.then").addBlock "if.else").addBlock "if.end"
  exact ⟨hopen, _, _, hawaits.next (.close hopen₃ _)⟩

end BuildM

/-! ## Structured commands -/

/-- Commands that emit an instruction, return, or build a conditional from such commands. -/
inductive Command.Structured : Command → Prop
  | alloca (name : String) (ty : Ty) : Structured (.alloca name ty)
  | load (src : Slot) : Structured (.load src)
  | store (value : Value) (dest : Slot) : Structured (.store value dest)
  | binary (op : Opcode) (lhs rhs : Value) : Structured (.binary op lhs rhs)
  | icmp (pred : IntPredicate) (lhs rhs : Value) : Structured (.icmp pred lhs rhs)
  | fcmp (pred : FloatPredicate) (lhs rhs : Value) : Structured (.fcmp pred lhs rhs)
  | cast (op : CastOp) (value : Value) (ty : Ty) : Structured (.cast op value ty)
  | ret (value : Option Value) : Structured (.ret value)
  | ifThen (cond : Value) {arm : List Command} : (∀ c ∈ arm, c.Structured) →
    Structured (.ifThen cond arm)
  | ifElse (cond : Value) {thenArm elseArm : List Command} : (∀ c ∈ thenArm, c.Structured) →
    (∀ c ∈ elseArm, c.Structured) → Structured (.ifElse cond thenArm elseArm)

/-- What a command seals the block with that the cursor is left at. -/
def Command.return? : Command → Option Terminator
  | .ret value => some (.ret value)
  | _ => none

/-- The return that commands end in. -/
def ownReturn? (commands : List Command) : Option Terminator :=
  commands.getLast?.bind Command.return?

/-! ## Ends of arms -/

/-- In `f`, the block at which an arm has ended is sealed by the arm's own return, or else by a
branch to the block behind the conditional. -/
def Function.EndsArm (f : Function) (endBlock : BlockId) (arm : List Command) (b : Builder) :
    Prop :=
  ∃ i last blk, b.current = some ⟨i⟩ ∧ f.blocks[i]? = some last ∧
    f.blocks[endBlock.index]? = some blk ∧
    last.terminator = some ((ownReturn? arm).getD (.br blk.name))

mutual

/-- A conditional that is called at `b` leaves the cursor at the block behind it, in `f` its arms
have ended, and so it is with the conditionals in its arms. Other commands have no arms. -/
def Command.Joins (f : Function) : Command → Builder → Prop
  | .ifThen cond arm, b =>
    ∃ endBlock b₁, BuildM.openIfThen cond b = .ok endBlock b₁ ∧
      JoinAll f arm b₁ ∧ f.EndsArm endBlock arm (b₁.runAll arm) ∧
      ((Command.ifThen cond arm).run b).2.current = some endBlock
  | .ifElse cond thenArm elseArm, b =>
    ∃ elseBlock endBlock b₁ b₂, BuildM.openIfElse cond b = .ok (elseBlock, endBlock) b₁ ∧
      JoinAll f thenArm b₁ ∧ f.EndsArm endBlock thenArm (b₁.runAll thenArm) ∧
      BuildM.fallInto endBlock (b₁.runAll thenArm) = .ok () b₂ ∧
      JoinAll f elseArm (b₂.moveTo elseBlock.index) ∧
      f.EndsArm endBlock elseArm ((b₂.moveTo elseBlock.index).runAll elseArm) ∧
      ((Command.ifElse cond thenArm elseArm).run b).2.current = some endBlock
  | _, _ => True

/-- The same of all commands, called one after the other. -/
def JoinAll (f : Function) : List Command → Builder → Prop
  | [], _ => True
  | c :: commands, b => c.Joins f b ∧ JoinAll f commands (c.run b).2

end

/-- The end of an arm stays as it is when the function is finished. -/
theorem Builder.Completes.endsArm {b b₁ b₂ : Builder} {arm : List Command} {blk : Block}
    {endBlock : BlockId} {f : Function} (h : b.Completes b₁ (ownReturn? arm))
    (hend : b.Pending endBlock.index blk) (hfall : BuildM.fallInto endBlock b₁ = .ok () b₂)
    (hf : b₂.function.Grows f) : f.EndsArm endBlock arm b₁ := by
  obtain ⟨hfell, hcurrent⟩ := h.fallInto hend hfall
  obtain ⟨i, last, hat, hlast⟩ := hfell.ends
  obtain ⟨last', hi, hgrows⟩ := hf i last hat.block
  obtain rfl := hgrows.of_sealed (by simp [hlast])
  obtain ⟨blk', hblk', hname⟩ := hf _ blk ((hfell.pending _ _).mpr hend).block
  refine ⟨i, last', blk', hcurrent.symm.trans hat.current, hi, hblk', ?_⟩
  rw [hlast, hname.name]

theorem BuildM.grows_of_fallInto {block : BlockId} {b b' : Builder}
    (h : fallInto block b = .ok () b') : b.function.Grows b'.function := by
  rw [← after_ok h]
  rcases after_fallInto block b with heq | heq
  · rw [heq]
    exact .refl _
  · have hreach : b.Reach armNames (after (branch block) b) := reach_branch block
    rw [heq]
    exact hreach.grows

/-! ## Tidy commands -/

/-- What a command has done that has succeeded at `b`: it has found an open block, it has left no
block unfinished but the one at the cursor, unless it has returned, and it has joined its arms,
whatever else the function becomes. -/
structure Command.Builds (c : Command) (b : Builder) : Prop where
  opened : b.Open
  completes : b.Completes (c.run b).2 c.return?
  joins : ∀ f, (c.run b).2.function.Grows f → c.Joins f b

/-- Wherever the command succeeds, it builds so. -/
def Command.Tidy (c : Command) : Prop :=
  ∀ ⦃b : Builder⦄ ⦃i : Nat⦄ ⦃blk : Block⦄, b.At i blk → (c.run b).1.error? = none → c.Builds b

/-- What tidy commands have done that have all succeeded from `b` on. -/
structure BuildAll (commands : List Command) (b : Builder) : Prop where
  completes : b.Completes (b.runAll commands) (ownReturn? commands)
  joins : ∀ f, (b.runAll commands).function.Grows f → JoinAll f commands b

theorem Builder.Open.buildAll {b : Builder} (hb : b.Open) {commands : List Command}
    (hcommands : ∀ c ∈ commands, c.Tidy) (h : Succeeds commands b) : BuildAll commands b := by
  induction commands generalizing b with
  | nil => exact ⟨.refl hb, by simp [JoinAll]⟩
  | cons c commands ih =>
    obtain ⟨hc, hcommands⟩ := List.forall_mem_cons.mp hcommands
    obtain ⟨hok, h⟩ := succeeds_cons.mp h
    obtain ⟨i, blk, hat, -⟩ := hb
    have hfirst := hc hat hok
    cases commands with
    | nil =>
      refine ⟨hfirst.completes, fun f hf => ?_⟩
      simpa [JoinAll] using hfirst.joins f hf
    | cons d commands =>
      -- The next command succeeds, so the first one has not returned.
      obtain ⟨i, blk, hat, -⟩ := hfirst.completes.ends
      have hopen := (hcommands d (.head _) hat (succeeds_cons.mp h).1).opened
      have hrest := ih hopen hcommands h
      refine ⟨hfirst.completes.trans hrest.completes, fun f hf => ?_⟩
      rw [JoinAll]
      exact ⟨hfirst.joins f (hrest.completes.grows.trans hf), hrest.joins f hf⟩

namespace Command.Tidy

theorem of_emission {c : Command} {α : Type} {x : BuildM α} {outcome : α → Outcome}
    {targets : List BlockId} (hrun : c.run = attempt (x >>= fun a => pure (outcome a)))
    (hx : Emission x targets) (hjoins : ∀ f b, c.Joins f b)
    (hcompletes : ∀ {b b' : Builder} {a : α}, b.Open → x b = .ok a b' →
      b.Completes b' c.return?) : c.Tidy := by
  intro b i blk _ hok
  rw [hrun] at hok
  obtain ⟨a, ha⟩ := attempt_eq_ok hok
  rw [← hrun] at ha
  have hopen := hx.opened ha
  exact ⟨hopen, hcompletes hopen ha, fun f _ => hjoins f b⟩

/-- A command that puts a result into a register. -/
theorem of_define {c : Command} {x : BuildM Value} {ty : Ty} {instr : Reg → Instr}
    (hrun : c.run = attempt (x >>= fun v => pure (.value v))) (hx : Emission x [])
    (hjoins : ∀ f b, c.Joins f b)
    (hdefine : x = do
      let dest ← BuildM.freshReg ty
      BuildM.emit (instr dest)
      return Value.reg dest)
    (hreturn : c.return? = none) : c.Tidy := by
  refine of_emission hrun hx hjoins fun hopen h => ?_
  rw [hdefine] at h
  rw [(BuildM.define_eq_ok h).2, hreturn]
  exact .compute hopen _

theorem ifThen (cond : Value) {arm : List Command} (harm : ∀ c ∈ arm, c.Tidy) :
    (Command.ifThen cond arm).Tidy := by
  intro b i blk hat hok
  obtain ⟨endBlock, b₁, b₂, hopen, hsucceeds, hfall, hrun⟩ := Command.ifThen_eq_ok hok
  obtain ⟨hb, endBlk, hawaits⟩ := BuildM.openIfThen_eq_ok hat hopen
  have hbuilt := hawaits.opened.buildAll harm hsucceeds
  have hend := hawaits.pending_of_mem (.head _)
  have hfell := (hbuilt.completes.fallInto hend hfall).1
  refine ⟨hb, ?_, fun f hf => ?_⟩
  · rw [hrun]
    exact (hawaits.next hfell).completes
  · rw [hrun] at hf
    rw [Command.Joins]
    refine ⟨endBlock, b₁, hopen, ?_, ?_, by rw [hrun]; rfl⟩
    · exact hbuilt.joins f ((BuildM.grows_of_fallInto hfall).trans hf)
    · exact hbuilt.completes.endsArm hend hfall hf

theorem ifElse (cond : Value) {thenArm elseArm : List Command} (hthen : ∀ c ∈ thenArm, c.Tidy)
    (helse : ∀ c ∈ elseArm, c.Tidy) : (Command.ifElse cond thenArm elseArm).Tidy := by
  intro b i blk hat hok
  obtain ⟨elseBlock, endBlock, b₁, b₂, b₃, hopen, hsucceeds, hfall, hsucceeds', hfall', hrun⟩ :=
    Command.ifElse_eq_ok hok
  obtain ⟨hb, elseBlk, endBlk, hawaits⟩ := BuildM.openIfElse_eq_ok hat hopen
  have hbuilt := hawaits.opened.buildAll hthen hsucceeds
  have hend := hawaits.pending_of_mem (.tail _ (.head _))
  have hawaits' := hawaits.next (hbuilt.completes.fallInto hend hfall).1
  have hbuilt' := hawaits'.opened.buildAll helse hsucceeds'
  have hend' := hawaits'.pending_of_mem (.head _)
  have hfell' := (hbuilt'.completes.fallInto hend' hfall').1
  refine ⟨hb, ?_, fun f hf => ?_⟩
  · rw [hrun]
    exact (hawaits'.next hfell').completes
  · rw [hrun] at hf
    have hf' := (BuildM.grows_of_fallInto hfall').trans hf
    -- The end of the first arm is sealed before the second arm is built.
    have hf₂ : b₂.function.Grows f := hbuilt'.completes.grows.trans hf'
    rw [Command.Joins]
    refine ⟨elseBlock, endBlock, b₁, b₂, hopen, ?_, ?_, hfall, ?_, ?_, by rw [hrun]; rfl⟩
    · exact hbuilt.joins f ((BuildM.grows_of_fallInto hfall).trans hf₂)
    · exact hbuilt.completes.endsArm hend hfall hf₂
    · exact hbuilt'.joins f hf'
    · exact hbuilt'.completes.endsArm hend' hfall' hf

end Command.Tidy

theorem Command.Structured.tidy {c : Command} (h : c.Structured) : c.Tidy := by
  induction h with
  | alloca name ty =>
    refine .of_emission (by rw [Command.run]) (.alloca name ty) (by simp [Command.Joins]) ?_
    intro b b' slot hopen h
    rw [(BuildM.alloca_eq_ok h).2]
    exact .allocate hopen name ty
  | store value dest =>
    refine .of_emission (by rw [Command.run]) (.store value dest) (by simp [Command.Joins]) ?_
    intro b b' _ hopen h
    rw [BuildM.emit_eq_ok h]
    exact .append hopen _
  | ret value =>
    refine .of_emission (by rw [Command.run]) (.ret value) (by simp [Command.Joins]) ?_
    intro b b' _ hopen h
    rw [BuildM.terminate_eq_ok h]
    exact .close hopen _
  | load src =>
    exact .of_define (by rw [Command.run]) (.load src) (by simp [Command.Joins]) rfl rfl
  | binary op lhs rhs =>
    exact .of_define (by rw [Command.run]) (.binary op lhs rhs) (by simp [Command.Joins]) rfl rfl
  | icmp pred lhs rhs =>
    exact .of_define (by rw [Command.run]) (.icmp pred lhs rhs) (by simp [Command.Joins]) rfl rfl
  | fcmp pred lhs rhs =>
    exact .of_define (by rw [Command.run]) (.fcmp pred lhs rhs) (by simp [Command.Joins]) rfl rfl
  | cast op value ty =>
    exact .of_define (by rw [Command.run]) (.cast op value ty) (by simp [Command.Joins]) rfl rfl
  | ifThen cond _ harm => exact .ifThen cond harm
  | ifElse cond _ _ hthen helse => exact .ifElse cond hthen helse

/-! ## Whole functions -/

theorem Builder.calls_runAll (b : Builder) (commands : List Command) :
    Calls Set.univ b (b.runAll commands) := by
  induction commands generalizing b with
  | nil => exact .nil b
  | cons c commands ih => exact (Command.run_calls b c).trans (ih (c.run b).2)

/-- Where no block has been waiting, none is left open. -/
theorem Builder.Completes.isSome_terminator {b b' : Builder} {t : Terminator}
    (h : b.Completes b' (some t)) (hb : ∀ j blk, ¬b.Pending j blk) :
    ∀ blk ∈ b'.function.blocks, blk.terminator.isSome := by
  intro blk hblk
  obtain ⟨j, hj⟩ := List.mem_iff_getElem?.mp hblk
  obtain ⟨i, last, hat, hlast⟩ := h.ends
  by_cases hcurrent : b'.current = some ⟨j⟩
  · obtain ⟨-, rfl⟩ := hat.unique ⟨hcurrent, hj⟩
    simp [hlast]
  · by_contra hopen
    exact hb j blk ((h.pending j blk).mp ⟨hj, by simpa using hopen, hcurrent⟩)

/-- Structured commands that all succeed from the first block of a new builder on and end in a
return make a function that the verifier accepts. Every conditional among them and in their arms has
left the cursor at the block behind it, and its arms end in their own returns or in branches to that
block. -/
theorem structured_verify {name base : String} {ret : Ty} {b : Builder} {commands : List Command}
    {value : Option Value}
    (hb : (do BuildM.moveTo (← BuildM.appendBlock base) : BuildM Unit) (.new name ret) = .ok () b)
    (hcommands : ∀ c ∈ commands, c.Structured) (hok : Succeeds commands b)
    (hlast : commands.getLast? = some (.ret value)) :
    (b.runAll commands).function.verify = .ok () ∧
    JoinAll (b.runAll commands).function commands b := by
  have hstart : b = ((Builder.new name ret).addBlock base).moveTo 0 := by
    cases hb
    rfl
  have hat : b.At 0 ⟨base, [], none⟩ := by
    subst hstart
    exact ⟨rfl, rfl⟩
  have hnone : ∀ j blk, ¬b.Pending j blk := by
    intro j blk hpending
    have hlt := hpending.lt
    have hcurrent := hpending.not_current
    rw [hstart] at hlt hcurrent
    obtain rfl : j = 0 := by simpa [Builder.addBlock, Builder.moveTo, Builder.new] using hlt
    exact hcurrent rfl
  have hcalls : Calls Set.univ (.new name ret) b := by
    subst hstart
    exact .cons (.appendBlock (Set.mem_univ base)) (.cons (.moveTo ⟨0⟩) (.nil _))
  have hopen : b.Open := ⟨0, _, hat, rfl⟩
  obtain ⟨hcompletes, hjoins⟩ := hopen.buildAll (fun c hc => (hcommands c hc).tidy) hok
  rw [ownReturn?, hlast] at hcompletes
  refine ⟨?_, hjoins _ (.refl _)⟩
  have hlinked := (hcalls.trans (b.calls_runAll commands)).reach.linked
  refine hlinked.verify_eq_ok_iff.mpr ⟨?_, hcompletes.isSome_terminator hnone⟩
  obtain ⟨i, last, hend, -⟩ := hcompletes.ends
  exact List.ne_nil_of_length_pos (Nat.zero_lt_of_lt hend.lt)

/-- Conditionals with arms that return and arms that do not, one inside another. -/
def earlyReturns : List Command :=
  [.alloca "x" .i32,
    .ifElse (.bool true)
      [.store (.int 1) ⟨"x", .i32⟩, .ifThen (.bool false) [.ret (some (.int 1))]]
      [.ifElse (.bool false) [.ret none] [.ret none]],
    .ret (some (.int 0))]

theorem earlyReturns_structured : ∀ c ∈ earlyReturns, c.Structured := by
  have hret (value : Option Value) : ∀ c ∈ [Command.ret value], c.Structured :=
    List.forall_mem_singleton.mpr (.ret value)
  refine List.forall_mem_cons.mpr ⟨.alloca _ _, List.forall_mem_cons.mpr ⟨?_, hret _⟩⟩
  refine .ifElse _ (List.forall_mem_cons.mpr ⟨.store _ _, ?_⟩) ?_
  · exact List.forall_mem_singleton.mpr (.ifThen _ (hret _))
  · exact List.forall_mem_singleton.mpr (.ifElse _ (hret _) (hret _))

/-- A new builder at its first block. -/
def entered : Builder := ((Builder.new "f" .i32).addBlock "entry").moveTo 0

theorem earlyReturns_verify :
    Succeeds earlyReturns entered ∧
    (entered.runAll earlyReturns).function.blockNames =
      ["entry", "if.then", "if.else", "if.end", "if.then.1", "if.end.1", "if.then.2", "if.else.1",
        "if.end.2"] ∧
    (entered.runAll earlyReturns).function.verify = .ok () ∧
    JoinAll (entered.runAll earlyReturns).function earlyReturns entered := by
  have hok : Succeeds earlyReturns entered := by decide +kernel
  exact ⟨hok, by decide +kernel, structured_verify rfl earlyReturns_structured hok rfl⟩

end TinyC.Ir
