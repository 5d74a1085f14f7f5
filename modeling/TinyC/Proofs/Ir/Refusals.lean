import TinyC.Proofs.Ir.Linked

/-!
# Refused emissions

An emission adds an instruction or a terminator at the cursor. It is refused if the cursor or one of
its targets is astray, that is, leads to no block, and otherwise if the current block is sealed.
Main statement: these are the only reasons, they come in this order, and a refused emission leaves
the function, the cursor and the names as they were.
-/

namespace TinyC.Ir

/-- The operations that add to the current block, with the handles of the blocks that they lead
to. -/
inductive Emission : {α : Type} → BuildM α → List BlockId → Prop
  | alloca (base : String) (ty : Ty) : Emission (BuildM.alloca base ty) []
  | load (src : Slot) : Emission (BuildM.load src) []
  | store (value : Value) (dest : Slot) : Emission (BuildM.store value dest) []
  | binary (op : Opcode) (lhs rhs : Value) : Emission (BuildM.binary op lhs rhs) []
  | icmp (pred : IntPredicate) (lhs rhs : Value) : Emission (BuildM.icmp pred lhs rhs) []
  | fcmp (pred : FloatPredicate) (lhs rhs : Value) : Emission (BuildM.fcmp pred lhs rhs) []
  | cast (op : CastOp) (value : Value) (ty : Ty) : Emission (BuildM.cast op value ty) []
  | branch (block : BlockId) : Emission (BuildM.branch block) [block]
  | condBranch (cond : Value) (thenBlock elseBlock : BlockId) :
    Emission (BuildM.condBranch cond thenBlock elseBlock) [thenBlock, elseBlock]
  | ret (value : Option Value) : Emission (BuildM.ret value) []

/-! ## Reasons -/

namespace Builder

variable {b : Builder} {targets : List BlockId} {e : Error}

/-- The cursor is unset, or it or one of the targets is the handle of a block that is not there. -/
def Astray (b : Builder) (targets : List BlockId) : Prop :=
  b.current = none ∨
    ∃ block, (b.current = some block ∨ block ∈ targets) ∧
      b.function.blocks.length ≤ block.index

/-- Why an emission with the given targets is refused, if it is. -/
def objection? (b : Builder) (targets : List BlockId) : Option Error :=
  if ∃ block ∈ targets, b.blockName? block = none then some .noInsertionPoint else b.refusal?

theorem blockName?_eq_none_iff {block : BlockId} :
    b.blockName? block = none ↔ b.function.blocks.length ≤ block.index := by
  simp [blockName?]

theorem currentBlock?_eq_none_iff : b.currentBlock? = none ↔ b.Astray [] := by
  unfold currentBlock? Astray
  cases b.current with
  | none => simp
  | some block => simp

theorem astray_iff :
    b.Astray targets ↔ (∃ block ∈ targets, b.blockName? block = none) ∨ b.currentBlock? = none := by
  simp only [currentBlock?_eq_none_iff, blockName?_eq_none_iff, Astray, List.not_mem_nil, or_false]
  constructor
  · rintro (hcurrent | ⟨block, hcurrent | hblock, hlength⟩)
    · exact .inr (.inl hcurrent)
    · exact .inr (.inr ⟨block, hcurrent, hlength⟩)
    · exact .inl ⟨block, hblock, hlength⟩
  · rintro (⟨block, hblock, hlength⟩ | hcurrent | ⟨block, hcurrent, hlength⟩)
    · exact .inr ⟨block, .inr hblock, hlength⟩
    · exact .inl hcurrent
    · exact .inr ⟨block, .inl hcurrent, hlength⟩

theorem objection?_of_astray (h : b.Astray targets) :
    b.objection? targets = some .noInsertionPoint := by
  unfold objection?
  split
  next => rfl
  next hknown =>
    have hcurrent := (astray_iff.mp h).resolve_left hknown
    simp only [refusal?, hcurrent]

theorem objection?_of_not_astray (h : ¬b.Astray targets) :
    ∃ blk, b.currentBlock? = some blk ∧
      b.objection? targets = if b.isSealed then some (.blockSealed blk.name) else none := by
  rw [astray_iff, not_or] at h
  obtain ⟨blk, hblk⟩ := Option.ne_none_iff_exists'.mp h.2
  refine ⟨blk, hblk, ?_⟩
  simp only [objection?, if_neg h.1, refusal?, isSealed, hblk, Option.any_some]

theorem objection?_eq_none (h : b.objection? targets = none) :
    (∀ block ∈ targets, ∃ name, b.blockName? block = some name) ∧ b.Open := by
  unfold objection? at h
  split at h
  next => cases h
  next hknown =>
    refine ⟨fun block hblock => ?_, open_of_refusal? h⟩
    exact Option.ne_none_iff_exists'.mp fun hnone => hknown ⟨block, hblock, hnone⟩

/-- Without targets only the current block matters. -/
theorem objection?_nil (b : Builder) : b.objection? [] = b.refusal? := by
  simp [objection?]

end Builder

/-! ## Outcomes -/

namespace Emission

variable {α : Type} {x : BuildM α} {targets : List BlockId} {b : Builder} {e : Error}

/-- An emission that meets an objection fails with it, and at most uses up a register. -/
theorem refused (h : Emission x targets) (he : b.objection? targets = some e) :
    x b = .error e b ∨ x b = .error e b.skipReg := by
  cases h with
  | alloca base ty =>
    rw [Builder.objection?_nil] at he
    exact .inl (BuildM.alloca_refused he base ty)
  | store value dest =>
    rw [Builder.objection?_nil] at he
    exact .inl (BuildM.emit_refused he _)
  | ret value =>
    rw [Builder.objection?_nil] at he
    exact .inl (BuildM.terminate_refused he _)
  | load | binary | icmp | fcmp | cast =>
    rw [Builder.objection?_nil] at he
    exact .inr (BuildM.define_refused he _ _)
  | branch block =>
    left
    cases hname : b.blockName? block with
    | none =>
      obtain rfl : .noInsertionPoint = e := by simpa [Builder.objection?, hname] using he
      exact BuildM.branch_unknown hname
    | some name =>
      rw [BuildM.branch_known hname]
      exact BuildM.terminate_refused (by simpa [Builder.objection?, hname] using he) _
  | condBranch cond thenBlock elseBlock =>
    left
    cases hthen : b.blockName? thenBlock with
    | none =>
      obtain rfl : .noInsertionPoint = e := by simpa [Builder.objection?, hthen] using he
      exact BuildM.condBranch_unknown cond (.inl hthen)
    | some thenName =>
      cases helse : b.blockName? elseBlock with
      | none =>
        obtain rfl : .noInsertionPoint = e := by simpa [Builder.objection?, helse] using he
        exact BuildM.condBranch_unknown cond (.inr helse)
      | some elseName =>
        rw [BuildM.condBranch_known cond hthen helse]
        exact BuildM.terminate_refused (by simpa [Builder.objection?, hthen, helse] using he) _

/-- An emission that meets no objection succeeds. -/
theorem accepted (h : Emission x targets) (hb : b.objection? targets = none) :
    ∃ a b', x b = .ok a b' := by
  obtain ⟨hknown, hopen⟩ := Builder.objection?_eq_none hb
  cases h with
  | alloca base ty => exact ⟨_, _, BuildM.alloca_open hopen base ty⟩
  | store value dest => exact ⟨_, _, BuildM.store_open hopen value dest⟩
  | ret value => exact ⟨_, _, BuildM.terminate_open hopen _⟩
  | load | binary | icmp | fcmp | cast => exact ⟨_, _, BuildM.define_open hopen _ _⟩
  | branch block =>
    obtain ⟨name, hname⟩ := hknown block (.head _)
    exact ⟨_, _, BuildM.branch_open hopen hname⟩
  | condBranch cond thenBlock elseBlock =>
    obtain ⟨thenName, hthen⟩ := hknown thenBlock (.head _)
    obtain ⟨elseName, helse⟩ := hknown elseBlock (.tail _ (.head _))
    exact ⟨_, _, BuildM.condBranch_open hopen cond hthen helse⟩

/-- An emission that succeeds has found an open block. -/
theorem opened (h : Emission x targets) {a : α} {b' : Builder} (hx : x b = .ok a b') : b.Open := by
  cases hb : b.objection? targets with
  | none => exact (Builder.objection?_eq_none hb).2
  | some e =>
    rcases h.refused hb with herror | herror
    · cases hx.symm.trans herror
    · cases hx.symm.trans herror

/-- An emission fails exactly with its objection, and only the number of registers may change. -/
theorem eq_error (h : Emission x targets) {b' : Builder} (hx : x b = .error e b') :
    b.objection? targets = some e ∧ (b' = b ∨ b' = b.skipReg) := by
  cases hb : b.objection? targets with
  | none =>
    obtain ⟨a, b'', hok⟩ := h.accepted hb
    cases hx.symm.trans hok
  | some e' =>
    rcases h.refused hb with herror | herror
    · cases hx.symm.trans herror
      exact ⟨rfl, .inl rfl⟩
    · cases hx.symm.trans herror
      exact ⟨rfl, .inr rfl⟩

/-- An emission fails if the cursor or a target is astray, and otherwise if the current block is
sealed, each with its error. A failure leaves no trace but in the number of registers. -/
theorem leaves_no_trace (h : Emission x targets) (b : Builder) :
    ((∃ e b', x b = .error e b') ↔ b.Astray targets ∨ b.isSealed) ∧
    ∀ e b', x b = .error e b' →
      (b.Astray targets ∧ e = .noInsertionPoint ∨
        ¬b.Astray targets ∧ ∃ blk, b.currentBlock? = some blk ∧ e = .blockSealed blk.name) ∧
      b'.function = b.function ∧ b'.current = b.current ∧ b'.names = b.names := by
  have hfails : (∃ e b', x b = .error e b') ↔ ∃ e, b.objection? targets = some e := by
    constructor
    · rintro ⟨e, b', hx⟩
      exact ⟨e, (h.eq_error hx).1⟩
    · rintro ⟨e, he⟩
      exact ⟨e, (h.refused he).elim (fun hx => ⟨_, hx⟩) fun hx => ⟨_, hx⟩⟩
  constructor
  · rw [hfails]
    by_cases hastray : b.Astray targets
    · simp [hastray, Builder.objection?_of_astray hastray]
    · obtain ⟨blk, -, hobjection⟩ := Builder.objection?_of_not_astray hastray
      simp [hastray, hobjection]
  · intro e b' hx
    obtain ⟨he, htrace⟩ := h.eq_error hx
    refine ⟨?_, ?_⟩
    · by_cases hastray : b.Astray targets
      · rw [Builder.objection?_of_astray hastray] at he
        exact .inl ⟨hastray, (Option.some.inj he).symm⟩
      · obtain ⟨blk, hblk, hobjection⟩ := Builder.objection?_of_not_astray hastray
        rw [hobjection] at he
        refine .inr ⟨hastray, blk, hblk, ?_⟩
        split at he
        · exact (Option.some.inj he).symm
        · cases he
    · rcases htrace with rfl | rfl
      · exact ⟨rfl, rfl, rfl⟩
      · exact ⟨rfl, rfl, rfl⟩

end Emission

/-- In a block that has returned, a conditional branch to a block that is not there is refused for
its target. -/
theorem collided_leaves_no_trace :
    Calls Set.univ (.new "f" .i32) collided ∧ collided.isSealed ∧
    ∃ b', BuildM.condBranch (.bool true) ⟨0⟩ ⟨6⟩ collided = .error .noInsertionPoint b' ∧
      b'.function = collided.function ∧ b'.current = collided.current ∧
      b'.names = collided.names := by
  have hemission := Emission.leaves_no_trace (.condBranch (.bool true) ⟨0⟩ ⟨6⟩) collided
  have hastray : collided.Astray [⟨0⟩, ⟨6⟩] := .inr ⟨⟨6⟩, .inr (by decide), by decide +kernel⟩
  obtain ⟨e, b', hb'⟩ := hemission.1.mpr (.inl hastray)
  obtain ⟨⟨-, rfl⟩ | ⟨hnot, -⟩, htrace⟩ := hemission.2 e b' hb'
  · exact ⟨collided_calls, by decide +kernel, b', hb', htrace⟩
  · exact absurd hastray hnot

end TinyC.Ir
