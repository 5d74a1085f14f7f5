import TinyC.Proofs.Lowering.Expression

/-!
# The frame of expressions

Lowering an expression adds to the state at two places: one operand on top of the stack, and
instructions that make registers at the end of the current block. Nothing is assumed of the state:
the stack may hold operands of an enclosing expression, the variables may have any slots, and the
cursor may be at a sealed block or at none, where an expression that needs an instruction is
refused.

Main statement: an expression that is lowered keeps the rest of the state, and at a block that
takes instructions only an undeclared name can keep it from being lowered.
-/

namespace TinyC

open Ir LowerM BuildM

namespace Ir.Builder

/-- Code added to the current block leaves the other blocks, and the rest of its own block. -/
theorem blocks_compute (b : Builder) (code : List Instr) (j : Nat) :
    (b.compute code).function.blocks[j]? =
      if b.current = some ⟨j⟩ then
        b.function.blocks[j]?.map fun blk => { blk with instrs := blk.instrs ++ code }
      else b.function.blocks[j]? := by
  simp only [compute, append, modifyCurrent]
  cases hcurrent : b.current with
  | none => simp
  | some block =>
    by_cases hj : block = ⟨j⟩
    · subst hj
      simp
    · have hindex : block.index ≠ j := by
        rintro rfl
        exact hj rfl
      simp [hj, List.getElem?_modify_ne _ _ hindex]

theorem current_compute (b : Builder) (code : List Instr) :
    (b.compute code).current = b.current := by
  simp [compute, append]

theorem currentBlock?_compute (b : Builder) (code : List Instr) :
    (b.compute code).currentBlock? =
      b.currentBlock?.map fun blk => { blk with instrs := blk.instrs ++ code } := by
  simp only [currentBlock?, current_compute]
  cases hcurrent : b.current with
  | none => rfl
  | some block => simp [blocks_compute, hcurrent]

/-- Whether a block takes instructions does not depend on those it has. -/
theorem refusal?_compute (b : Builder) (code : List Instr) :
    (b.compute code).refusal? = b.refusal? := by
  unfold refusal?
  rw [currentBlock?_compute]
  cases b.currentBlock? <;> rfl

end Ir.Builder

/-! ## Values made from values -/

/-- The operations of a builder that make a register from values. -/
inductive Ir.Calculates : BuildM Value → Prop
  | binary (op : Opcode) (lhs rhs : Value) : Calculates (BuildM.binary op lhs rhs)
  | icmp (pred : IntPredicate) (lhs rhs : Value) : Calculates (BuildM.icmp pred lhs rhs)
  | fcmp (pred : FloatPredicate) (lhs rhs : Value) : Calculates (BuildM.fcmp pred lhs rhs)
  | cast (op : CastOp) (value : Value) (ty : Ir.Ty) : Calculates (BuildM.cast op value ty)

/-- The operations that make a register, from a slot or from values. -/
inductive Ir.Defines : BuildM Value → Prop
  | load (src : Slot) : Defines (BuildM.load src)
  | calculate {x : BuildM Value} : Calculates x → Defines x

theorem Ir.Defines.exists_instr {x : BuildM Value} (h : Defines x) :
    ∃ (ty : Ir.Ty) (instr : Reg → Instr), (∀ r, (instr r).dest? = some r) ∧
      x = do
        let dest ← freshReg ty
        emit (instr dest)
        return Value.reg dest := by
  cases h with
  | load src => exact ⟨src.ty, fun dest => .load dest src, fun _ => rfl, rfl⟩
  | calculate h =>
    cases h with
    | binary op lhs rhs => exact ⟨lhs.ty, fun dest => .binary dest op lhs rhs, fun _ => rfl, rfl⟩
    | icmp pred lhs rhs => exact ⟨.i1, fun dest => .icmp dest pred lhs rhs, fun _ => rfl, rfl⟩
    | fcmp pred lhs rhs => exact ⟨.i1, fun dest => .fcmp dest pred lhs rhs, fun _ => rfl, rfl⟩
    | cast op value ty => exact ⟨ty, fun dest => .cast dest op value, fun _ => rfl, rfl⟩

/-- What holds of steps that do nothing, of those that make a register from values, and of one
behind another. -/
structure Calculations (P : {α : Type} → LowerM α → Prop) : Prop where
  pure {α : Type} (a : α) : P (Pure.pure a)
  bind {α β : Type} {x : LowerM α} {f : α → LowerM β} : P x → (∀ a, P (f a)) → P (x >>= f)
  calculate {x : BuildM Value} : Calculates x → P (liftM x : LowerM Value)

namespace Calculations

variable {P : {α : Type} → LowerM α → Prop}

theorem truth (h : Calculations P) (v : Value) : P (truth v) := by
  cases v with
  | reg r =>
    cases hty : r.ty with
    | i1 =>
      simp only [LowerM.truth, hty]
      exact h.pure _
    | i32 =>
      simp only [LowerM.truth, hty]
      exact h.calculate (.icmp ..)
    | f32 =>
      simp only [LowerM.truth, hty]
      exact h.calculate (.fcmp ..)
  | _ => exact h.pure _

theorem convert (h : Calculations P) (v : Value) (ty : Ir.Ty) : P (convert v ty) := by
  unfold LowerM.convert
  split
  next => exact h.pure v
  next =>
    split
    next => exact h.truth v
    next => exact h.pure _
    next => exact h.pure _
    next => exact h.calculate (.cast ..)
    next => exact h.pure _
    next => exact h.pure _
    next => exact h.calculate (.cast ..)

theorem promote (h : Calculations P) (v : Value) : P (promote v) := by
  unfold LowerM.promote
  split
  next => exact h.convert v .i32
  next => exact h.pure v

theorem balance (h : Calculations P) (lhs rhs : Value) : P (balance lhs rhs) := by
  unfold LowerM.balance
  refine h.bind (h.promote lhs) fun lhs => h.bind (h.promote rhs) fun rhs => ?_
  split
  next =>
    exact h.bind (h.convert lhs .f32) fun lhs =>
      h.bind (h.convert rhs .f32) fun rhs => h.pure (lhs, rhs)
  next => exact h.pure (lhs, rhs)

theorem operator (h : Calculations P) (op : Operator) (lhs rhs : Value) :
    P (op.lower lhs rhs) := by
  cases op with
  | arith op => exact h.bind (h.balance lhs rhs) fun _ => h.calculate (.binary ..)
  | compare op =>
    refine h.bind (h.balance lhs rhs) ?_
    rintro ⟨lhs, rhs⟩
    dsimp only
    split
    next => exact h.calculate (.fcmp ..)
    next => exact h.calculate (.icmp ..)
  | logic op =>
    exact h.bind (h.truth lhs) fun lhs => h.bind (h.truth rhs) fun rhs => h.calculate (.binary ..)

end Calculations

/-- What holds of loads besides. -/
structure Chains (P : {α : Type} → LowerM α → Prop) : Prop extends Calculations P where
  load (src : Slot) : P (liftM (BuildM.load src) : LowerM Value)

theorem Chains.fetch {P : {α : Type} → LowerM α → Prop} (h : Chains P) (operand : Operand) :
    P (fetch operand) := by
  cases operand with
  | value v => exact h.pure v
  | storage slot => exact h.load slot

/-! ## Straight-line steps -/

/-- What becomes of a step that adds code to the current block and does nothing else. -/
inductive Lowering.Emitted {α : Type} (σ : Lowering) : EStateM.Result Error Lowering α → Prop
  | code (a : α) {code : List Instr} : (∀ i ∈ code, i.dest?.isSome) →
    Emitted σ (.ok a (σ.compute code))
  /-- The current block takes no code. -/
  | refused {e : Ir.Error} (σ' : Lowering) : σ.builder.refusal? = some e →
    Emitted σ (.error (.invalidIr e) σ')

/-- In every state, the step adds code to the current block and does nothing else. -/
def Straight {α : Type} (x : LowerM α) : Prop :=
  ∀ σ : Lowering, σ.Emitted (x σ)

namespace Straight

variable {α β : Type}

theorem pure (a : α) : Straight (Pure.pure a) := by
  intro σ
  have h := Lowering.Emitted.code (σ := σ) a (List.forall_mem_nil _)
  rwa [Lowering.compute_nil] at h

theorem bind {x : LowerM α} {f : α → LowerM β} (hx : Straight x) (hf : ∀ a, Straight (f a)) :
    Straight (x >>= f) := by
  intro σ
  have h := hx σ
  generalize hrun : x σ = result at h
  cases h with
  | refused σ' hrefusal =>
    rw [bind_error hrun]
    exact .refused σ' hrefusal
  | @code a code hcode =>
    rw [bind_ok hrun]
    have h' := hf a (σ.compute code)
    generalize f a (σ.compute code) = result' at h'
    cases h' with
    | refused σ' hrefusal =>
      exact .refused σ' ((Builder.refusal?_compute _ code).symm.trans hrefusal)
    | code b hcode' =>
      rw [Lowering.compute_compute]
      exact .code b (List.forall_mem_append.mpr ⟨hcode, hcode'⟩)

theorem define {x : BuildM Value} (h : Defines x) : Straight (liftM x : LowerM Value) := by
  obtain ⟨ty, instr, hdest, rfl⟩ := h.exists_instr
  intro σ
  cases hrefusal : σ.builder.refusal? with
  | some e =>
    rw [lift_error (define_refused hrefusal ty instr)]
    exact .refused _ hrefusal
  | none =>
    rw [lift_ok (define_open (Builder.open_of_refusal? hrefusal) ty instr)]
    exact .code _ (by simp [hdest])

theorem chains : Chains fun x => Straight x where
  pure := pure
  bind := bind
  calculate hx := define (.calculate hx)
  load src := define (.load src)

end Straight

/-! ## Undeclared names -/

namespace SymbolTable

/-- Every name that is used is declared. -/
def Covers (t : SymbolTable) (mentions : List Mention) : Prop :=
  ∀ name, Mention.use name ∈ mentions → t.contains name

/-- The first name that is used without being declared. -/
def FirstMissing (t : SymbolTable) (mentions : List Mention) (name : String) : Prop :=
  ¬t.contains name ∧
    ∃ before behind, mentions = before ++ .use name :: behind ∧ t.Covers before

variable {t : SymbolTable} {mentions mentions' : List Mention} {name : String}

theorem Covers.nil : t.Covers [] := fun _ h => (List.not_mem_nil h).elim

theorem Covers.append (h : t.Covers mentions) (h' : t.Covers mentions') :
    t.Covers (mentions ++ mentions') := by
  intro x hx
  exact (List.mem_append.mp hx).elim (h x) (h' x)

theorem FirstMissing.append_left (h : t.FirstMissing mentions name) (mentions' : List Mention) :
    t.FirstMissing (mentions ++ mentions') name := by
  obtain ⟨hname, before, behind, rfl, hbefore⟩ := h
  exact ⟨hname, before, behind ++ mentions', by simp, hbefore⟩

theorem FirstMissing.append_right (h : t.Covers mentions) (h' : t.FirstMissing mentions' name) :
    t.FirstMissing (mentions ++ mentions') name := by
  obtain ⟨hname, before, behind, rfl, hbefore⟩ := h'
  exact ⟨hname, mentions ++ before, behind, by simp, h.append hbefore⟩

theorem FirstMissing.mem (h : t.FirstMissing mentions name) : Mention.use name ∈ mentions := by
  obtain ⟨-, before, behind, rfl, -⟩ := h
  simp

end SymbolTable

/-! ## Expressions -/

namespace Expr

/-- What becomes of an expression when it is lowered. -/
inductive Ends (e : Expr) (σ : Lowering) : EStateM.Result Error Lowering Unit → Prop
  | pushes (operand : Operand) {code : List Instr} : (∀ i ∈ code, i.dest?.isSome) →
    σ.symbols.Covers e.mentions → Ends e σ (.ok () ((σ.compute code).push operand))
  | undeclared {name : String} (σ' : Lowering) : σ.symbols.FirstMissing e.mentions name →
    Ends e σ (.error (.semantic (.undeclaredUse name)) σ')
  /-- The current block takes no code. -/
  | refused {err : Ir.Error} (σ' : Lowering) : σ.builder.refusal? = some err →
    Ends e σ (.error (.invalidIr err) σ')

theorem Ends.push {e : Expr} {σ : Lowering} (h : σ.symbols.Covers e.mentions)
    (operand : Operand) : e.Ends σ (LowerM.push operand σ) := by
  have hends := Ends.pushes operand (List.forall_mem_nil _) h
  rwa [Lowering.compute_nil] at hends

theorem var_ends (name : String) (σ : Lowering) : (var name).Ends σ ((var name).lower σ) := by
  have hget : (get : LowerM Lowering) σ = .ok σ σ := rfl
  rw [lower, bind_ok hget]
  cases hname : σ.symbols.lookup? name with
  | none => exact .undeclared σ ⟨by simp [SymbolTable.contains, hname], [], [], rfl, .nil⟩
  | some symbol =>
    refine .push ?_ (.storage symbol.slot)
    simp [SymbolTable.Covers, mentions, SymbolTable.contains, hname]

/-- With the operands of both sides on the stack, what is left to do is straight-line code and a
push. -/
theorem apply_eq (op : Operator) (l r : Operand) (σ : Lowering) :
    (do
      let (lhs, rhs) ← popPair
      push (.value (← op.lower lhs rhs)) : LowerM Unit) ((σ.push l).push r) =
    ((do op.lower (← fetch l) (← fetch r)) >>= fun v => push (.value v) : LowerM Unit) σ := by
  rw [bind_congr_run (popPair_push l r σ)]
  simp only [bind_assoc, pure_bind]

theorem Ends.apply {e : Expr} {σ : Lowering} {c : List Instr} (hc : ∀ i ∈ c, i.dest?.isSome)
    (hcovers : σ.symbols.Covers e.mentions) (op : Operator) (l r : Operand) :
    e.Ends σ ((do
      let (lhs, rhs) ← popPair
      LowerM.push (.value (← op.lower lhs rhs)) : LowerM Unit)
        (((σ.compute c).push l).push r)) := by
  have hop : Straight (do op.lower (← fetch l) (← fetch r)) :=
    .bind (Straight.chains.fetch l) fun v => .bind (Straight.chains.fetch r) fun w =>
      Straight.chains.operator op v w
  have h := hop (σ.compute c)
  generalize hrun : (do op.lower (← fetch l) (← fetch r) : LowerM Value) (σ.compute c) = result at h
  rw [apply_eq]
  cases h with
  | refused σ' hrefusal =>
    rw [bind_error hrun]
    exact .refused σ' ((Builder.refusal?_compute _ c).symm.trans hrefusal)
  | code v hcode =>
    rw [bind_ok hrun, push_eq, Lowering.compute_compute]
    exact .pushes (.value v) (List.forall_mem_append.mpr ⟨hc, hcode⟩) hcovers

theorem lower_ends (e : Expr) (σ : Lowering) : e.Ends σ (e.lower σ) := by
  induction e generalizing σ with
  | int n => exact .push .nil _
  | float x => exact .push .nil _
  | var name => exact var_ends name σ
  | binary op lhs rhs ihl ihr =>
    have hl := ihl σ
    rw [lower]
    generalize hlrun : lhs.lower σ = lresult at hl
    cases hl with
    | undeclared σ' hfirst =>
      rw [bind_error hlrun]
      exact .undeclared σ' (hfirst.append_left _)
    | refused σ' hrefusal =>
      rw [bind_error hlrun]
      exact .refused σ' hrefusal
    | @pushes l c hc hcovers =>
      rw [bind_ok hlrun]
      -- The right side is lowered above the operand of the left one.
      have hr := ihr ((σ.compute c).push l)
      generalize hrrun : rhs.lower ((σ.compute c).push l) = rresult at hr
      cases hr with
      | undeclared σ' hfirst =>
        rw [bind_error hrrun]
        exact .undeclared σ' (.append_right hcovers hfirst)
      | refused σ' hrefusal =>
        rw [bind_error hrrun]
        exact .refused σ' ((Builder.refusal?_compute _ c).symm.trans hrefusal)
      | @pushes r c' hc' hcovers' =>
        have hstate : ((((σ.compute c).push l).compute c').push r) =
            ((σ.compute (c ++ c')).push l).push r := by
          rw [← Lowering.compute_compute]
          rfl
        rw [bind_ok hrrun, hstate]
        exact .apply (List.forall_mem_append.mpr ⟨hc, hc'⟩) (hcovers.append hcovers') op l r

end Expr

/-! ## The frame -/

/-- A state with one operand more on its stack and with more code in its current block. -/
structure Lowering.Gained (σ σ' : Lowering) : Prop where
  stack : ∃ operand, σ'.stack = operand :: σ.stack
  symbols : σ'.symbols = σ.symbols
  current : σ'.builder.current = σ.builder.current
  names : σ'.builder.names = σ.builder.names
  header : σ'.builder.function.name = σ.builder.function.name ∧
    σ'.builder.function.ret = σ.builder.function.ret
  /-- The code loads, computes, compares and converts, and each instruction takes up a register. -/
  blocks : ∃ code, (∀ i ∈ code, i.dest?.isSome) ∧
    σ'.builder.temporaries = σ.builder.temporaries + code.length ∧
    ∀ j : Nat, σ'.builder.function.blocks[j]? =
      if σ.builder.current = some ⟨j⟩ then
        σ.builder.function.blocks[j]?.map fun blk => { blk with instrs := blk.instrs ++ code }
      else σ.builder.function.blocks[j]?

theorem Lowering.gained_push_compute (σ : Lowering) {code : List Instr}
    (hcode : ∀ i ∈ code, i.dest?.isSome) (operand : Operand) :
    σ.Gained ((σ.compute code).push operand) where
  stack := ⟨operand, rfl⟩
  symbols := rfl
  current := σ.builder.current_compute code
  names := by simp [Lowering.push, Lowering.compute, Builder.compute, Builder.append]
  header := by simp [Lowering.push, Lowering.compute, Builder.compute, Builder.append]
  blocks := ⟨code, hcode, rfl, σ.builder.blocks_compute code⟩

namespace Expr

variable {e : Expr} {σ σ' : Lowering}

theorem Ends.gained (h : e.Ends σ (.ok () σ')) : σ.Gained σ' ∧ σ.symbols.Covers e.mentions := by
  cases h with
  | pushes operand hcode hcovers => exact ⟨σ.gained_push_compute hcode operand, hcovers⟩

theorem Ends.cause {err : Error} (h : e.Ends σ (.error err σ')) :
    (∃ name, err = .semantic (.undeclaredUse name) ∧ σ.symbols.FirstMissing e.mentions name) ∨
      ∃ r, err = .invalidIr r ∧ σ.builder.refusal? = some r := by
  cases h with
  | undeclared _ hfirst => exact .inl ⟨_, rfl, hfirst⟩
  | refused _ hrefusal => exact .inr ⟨_, rfl, hrefusal⟩

/-- An open block refuses nothing. -/
theorem Ends.firstMissing {err : Error} (h : e.Ends σ (.error err σ')) (hσ : σ.Open) :
    ∃ name, err = .semantic (.undeclaredUse name) ∧ σ.symbols.FirstMissing e.mentions name := by
  rcases h.cause with hfirst | ⟨r, -, hrefusal⟩
  · exact hfirst
  · rw [Builder.Open.refusal? hσ] at hrefusal
    cases hrefusal

end Expr

/-- How an expression is lowered in a state. -/
structure Expr.Disciplined (e : Expr) (σ : Lowering) : Prop where
  gained : ∀ σ', e.lower σ = .ok () σ' → σ.Gained σ'
  /-- At a block that takes instructions, only an undeclared name is an obstacle. -/
  fails_iff : σ.Open → ((∃ err σ', e.lower σ = .error err σ') ↔
    ∃ name, Mention.use name ∈ e.mentions ∧ ¬σ.symbols.contains name)
  /-- The error names the leftmost of them. -/
  leftmost : σ.Open → ∀ err σ', e.lower σ = .error err σ' →
    ∃ name, err = .semantic (.undeclaredUse name) ∧ σ.symbols.FirstMissing e.mentions name
  /-- The operands of an expression are always there when they are popped. -/
  no_underflow : ∀ σ', e.lower σ ≠ .error (.internal .stackUnderflow) σ'

theorem Expr.lower_disciplined (e : Expr) (σ : Lowering) : e.Disciplined σ := by
  have hends {result} (h : e.lower σ = result) : e.Ends σ result := h ▸ e.lower_ends σ
  refine ⟨?_, fun hσ => ⟨?_, ?_⟩, ?_, ?_⟩
  · intro σ' hok
    exact (hends hok).gained.1
  · rintro ⟨err, σ', herror⟩
    obtain ⟨name, -, hfirst⟩ := (hends herror).firstMissing hσ
    exact ⟨name, hfirst.mem, hfirst.1⟩
  · rintro ⟨name, huse, hname⟩
    cases hrun : e.lower σ with
    | ok _ σ' => exact absurd ((hends hrun).gained.2 name huse) hname
    | error err σ' => exact ⟨err, σ', rfl⟩
  · intro hσ err σ' herror
    exact (hends herror).firstMissing hσ
  · intro σ' herror
    rcases (hends herror).cause with ⟨name, hcause, -⟩ | ⟨r, hcause, -⟩
    · cases hcause
    · cases hcause

end TinyC
