import TinyC.Proofs.Lowering.Values

/-!
# Lowering of expressions

An expression in scope adds code to the current block and leaves one operand on the stack, which
stands for the value of the expression. An expression that is not in scope fails with the first
name that is not declared. Variables are kept in memory, and a symbol table says where.
-/

namespace TinyC

open Ir LowerM BuildM

/-! ## Operators -/

theorem ArithOp.intOpcode_apply (P : Primitives) (op : ArithOp) (m n : Int32) :
    op.intOpcode.apply P (.int m) (.int n) = (op.ints P m n).map .int := by
  cases op <;> rfl

theorem ArithOp.floatOpcode_apply (P : Primitives) (op : ArithOp) (x y : Binary32) :
    op.floatOpcode.apply P (.float x) (.float y) = (op.floats P x y).map .float := by
  cases op <;> rfl

theorem CompareOp.intPredicate_holds (op : CompareOp) (m n : Int32) :
    op.intPredicate.holds m n = op.ints m n := by
  cases op <;> rfl

theorem CompareOp.floatPredicate_holds (op : CompareOp) (x y : Binary32) :
    op.floatPredicate.holds x y = op.floats x y := by
  cases op <;> rfl

theorem LogicOp.opcode_apply (P : Primitives) (op : LogicOp) (a b : Bool) :
    op.opcode.apply P (.bool a) (.bool b) = some (.bool (op.eval a b)) := by
  cases op <;> rfl

theorem ArithOp.ty_intOpcode (op : ArithOp) : op.intOpcode.ty = .i32 := by
  cases op <;> rfl

theorem ArithOp.ty_floatOpcode (op : ArithOp) : op.floatOpcode.ty = .f32 := by
  cases op <;> rfl

theorem LogicOp.ty_opcode (op : LogicOp) : op.opcode.ty = .i1 := by
  cases op <;> rfl

/-- An operation on the two values is done in floats. -/
inductive Val.Mixed : Val → Val → Prop
  | left (x : Binary32) (b : Val) : Mixed (.float x) b
  | right (a : Val) (y : Binary32) : Mixed a (.float y)

theorem ArithOp.eval_mixed (P : Primitives) (op : ArithOp) {a b : Val} (h : a.Mixed b) :
    op.eval P a b = (op.floats P a.toFloat b.toFloat).map .float := by
  cases h with
  | left x b => rfl
  | right a y => cases a <;> rfl

theorem CompareOp.eval_mixed (op : CompareOp) {a b : Val} (h : a.Mixed b) :
    op.eval a b = op.floats a.toFloat b.toFloat := by
  cases h with
  | left x b => rfl
  | right a y => cases a <;> rfl

/-- The values `l` and `r` are `lhs` and `rhs` in a common type, which is that of floats as soon as
one of them is a float. -/
inductive Balanced (lhs rhs : Operand) (l r : Value) (code : List Instr) : Prop
  | ints : l.ty = .i32 → r.ty = .i32 →
    (∀ P st a b, lhs.Numeric → rhs.Numeric → lhs.eval st = some a → rhs.eval st = some b →
      ∃ st' m n, exec P code st = some st' ∧ a = .int m ∧ b = .int n ∧
        l.eval st' = some (.int m) ∧ r.eval st' = some (.int n)) →
    Balanced lhs rhs l r code
  | floats : l.ty = .f32 → r.ty = .f32 →
    (∀ P st a b, lhs.Numeric → rhs.Numeric → lhs.eval st = some a → rhs.eval st = some b →
      ∃ st', exec P code st = some st' ∧ a.Mixed b ∧
        l.eval st' = some (.float a.toFloat) ∧ r.eval st' = some (.float b.toFloat)) →
    Balanced lhs rhs l r code

theorem LowerM.balance_emits {σ : Lowering} {lhs rhs : Value} (hσ : σ.Open)
    (hlhs : σ.Live (.value lhs)) (hrhs : σ.Live (.value rhs)) :
    ∃ l r code, Emits (balance lhs rhs) σ (l, r) code ∧ (∀ s, ¬Uses s code) ∧
      (σ.compute code).Live (.value l) ∧ (σ.compute code).Live (.value r) ∧
      Balanced (.value lhs) (.value rhs) l r code := by
  obtain ⟨l, r, c, c', h⟩ := Converts.pair hσ (promote_converts hσ hlhs) hrhs
    fun τ hτ hrhs => promote_converts hτ hrhs
  unfold balance
  -- Promotion leaves integers and floats. One float is enough to make floats of both.
  by_cases hfloat : lhs.ty = .f32 ∨ rhs.ty = .f32
  · have hcond : (l.ty.isFloat || r.ty.isFloat) = true := by
      rw [h.left.ty_eq, h.right.ty_eq]
      rcases hfloat with hfloat | hfloat <;> simp [hfloat, Ir.Ty.isFloat]
    have hopen := hσ.compute (c ++ c')
    obtain ⟨l', r', d, d', h'⟩ := Converts.pair hopen (convert_converts hopen h.live_left .f32)
      h.live_right fun τ hτ hr => convert_converts hτ hr .f32
    refine ⟨l', r', c ++ c' ++ (d ++ d' ++ []), ?_, ?_, ?_, ?_, .floats h'.left.ty_eq
      h'.right.ty_eq ?_⟩
    · refine h.bind hσ ?_
      rw [if_pos hcond]
      exact h'.bind hopen (.pure _)
    · simp [h.left.uses, h.right.uses, h'.left.uses, h'.right.uses]
    · simpa [Lowering.compute_compute] using h'.live_left
    · simpa [Lowering.compute_compute] using h'.live_right
    · intro P st a b hlnum hrnum ha hb
      obtain ⟨st₁, hst₁, hl, hr⟩ := h.exec P st a b hlnum hrnum ha hb
      obtain ⟨st₂, hst₂, hl', hr'⟩ := h'.exec P st₁ _ _ (h.left.numeric hlnum)
        (h.right.numeric hrnum) hl hr
      obtain ⟨x, hx, hax⟩ := Value.eval_f32 hl' h'.left.ty_eq
      obtain ⟨y, hy, hby⟩ := Value.eval_f32 hr' h'.right.ty_eq
      -- In a float register a value is what conversion to floats makes of it.
      cases hax
      cases hby
      refine ⟨st₂, by rw [exec_append_of_eq_some hst₁, List.append_nil, hst₂], ?_, hx, hy⟩
      rcases hfloat with hty | hty
      · obtain ⟨x, -, rfl⟩ := Value.eval_f32 ha hty
        exact .left x b
      · obtain ⟨y, -, rfl⟩ := Value.eval_f32 hb hty
        exact .right a y
  · rw [not_or] at hfloat
    have hl : l.ty = .i32 := by rw [h.left.ty_eq, if_neg hfloat.1]
    have hr : r.ty = .i32 := by rw [h.right.ty_eq, if_neg hfloat.2]
    refine ⟨l, r, c ++ c' ++ [], ?_, ?_, ?_, ?_, .ints hl hr ?_⟩
    · refine h.bind hσ ?_
      simp only [hl, hr, Ir.Ty.isFloat, Bool.or_self, Bool.false_eq_true, if_false]
      exact .pure _
    · simp [h.left.uses, h.right.uses]
    · simpa using h.live_left
    · simpa using h.live_right
    · intro P st a b hlnum hrnum ha hb
      obtain ⟨st', hst', hla, hrb⟩ := h.exec P st a b hlnum hrnum ha hb
      obtain ⟨m, hm, rfl⟩ := Value.eval_i32 hla hl
      obtain ⟨n, hn, rfl⟩ := Value.eval_i32 hrb hr
      exact ⟨st', m, n, by simpa using hst', rfl, rfl, hm, hn⟩

/-- A step makes a register from two operands and does not touch memory. Where they stand for `a`
and `b`, the register stands for `f P a b`, and its code traps if there is none. -/
def Combines (x : LowerM Value) (σ : Lowering) (lhs rhs : Operand)
    (f : Primitives → Val → Val → Option Val) : Prop :=
  ∃ r code, Emits x σ (.reg r) code ∧ (∀ s, ¬Uses s code) ∧
    (σ.compute code).Live (.value (.reg r)) ∧
    ∀ P st a b, lhs.Numeric → rhs.Numeric → lhs.eval st = some a → rhs.eval st = some b →
      Realizes P code st (.value (.reg r)) (f P a b)

/-- The last instruction of an operator is the operation itself. -/
theorem Combines.define {α : Type} {σ : Lowering} {x : LowerM α} {k : α → LowerM Value}
    {y : BuildM Value} {v : α} {c : List Instr} {lhs rhs : Operand} {ty : Ir.Ty} {i : Instr}
    {f : Primitives → Val → Val → Option Val} (hσ : σ.Open) (hx : Emits x σ v c)
    (hc : ∀ s, ¬Uses s c) (hk : k v = liftM y)
    (hrun : y (σ.compute c).builder =
      .ok (.reg ((σ.compute c).builder.nextReg ty)) ((σ.compute c).builder.compute [i]))
    (hdest : i.dest? = some ((σ.compute c).builder.nextReg ty)) (hslot : i.slot? = none)
    (hfits : i.Fits σ.HasSlot (σ.compute c).builder.instrs (σ.compute c).builder.temporaries)
    (h : ∀ P st a b, lhs.Numeric → rhs.Numeric → lhs.eval st = some a → rhs.eval st = some b →
      ∃ (st' : Ir.State) (o : Option Datum), exec P c st = some st' ∧ (∀ d ∈ o, d.ty = ty) ∧
        o.map Datum.val = f P a b ∧
        i.exec P st' = o.map (st'.define ((σ.compute c).builder.nextReg ty))) :
    Combines (x >>= k) σ lhs rhs f := by
  obtain ⟨hemits, hlive⟩ := Emits.define (hσ.compute c) hrun hdest hfits
  rw [← hk] at hemits
  refine ⟨_, c ++ [i], hx.bind hσ hemits, by simp [hc, hslot], ?_, ?_⟩
  · rwa [← Lowering.compute_compute]
  · intro P st a b hlnum hrnum ha hb
    obtain ⟨st', o, hst', hty, hval, hexec⟩ := h P st a b hlnum hrnum ha hb
    rw [← hval]
    exact .append hst' (.define hexec hty)

section

variable {σ : Lowering} {lhs rhs : Value}

theorem ArithOp.lower_combines (hσ : σ.Open) (hlhs : σ.Live (.value lhs))
    (hrhs : σ.Live (.value rhs)) (op : ArithOp) :
    Combines ((Operator.arith op).lower lhs rhs) σ (.value lhs) (.value rhs)
      fun P => op.eval P := by
  obtain ⟨l, r, c, hemits, hc, hl, hr, hbalanced⟩ := balance_emits hσ hlhs hrhs
  have hopen := hσ.compute c
  cases hbalanced with
  | ints hlty hrty hsem =>
    refine .define hσ hemits hc (by simp [hlty, Ir.Ty.isFloat])
      (binary_open hopen op.intOpcode l r) rfl rfl
      ⟨⟨hlty.trans op.ty_intOpcode.symm, hlty.trans op.ty_intOpcode.symm,
        hrty.trans op.ty_intOpcode.symm⟩, by simpa [Instr.operands] using! ⟨hl, hr⟩,
        by simp [Instr.slot?]⟩ ?_
    intro P st a b hlnum hrnum ha hb
    obtain ⟨st', m, n, hst', rfl, rfl, hm, hn⟩ := hsem P st a b hlnum hrnum ha hb
    refine ⟨st', (op.ints P m n).map .int, hst', ?_, ?_, ?_⟩
    · simp [hlty, Datum.ty]
    · simp [ArithOp.eval, Function.comp_def, Datum.val]
    · rw [Instr.exec_binary hm hn, op.intOpcode_apply]
  | floats hlty hrty hsem =>
    refine .define hσ hemits hc (by simp [hlty, Ir.Ty.isFloat])
      (binary_open hopen op.floatOpcode l r) rfl rfl
      ⟨⟨hlty.trans op.ty_floatOpcode.symm, hlty.trans op.ty_floatOpcode.symm,
        hrty.trans op.ty_floatOpcode.symm⟩, by simpa [Instr.operands] using! ⟨hl, hr⟩,
        by simp [Instr.slot?]⟩ ?_
    intro P st a b hlnum hrnum ha hb
    obtain ⟨st', hst', hmixed, hx, hy⟩ := hsem P st a b hlnum hrnum ha hb
    refine ⟨st', (op.floats P a.toFloat b.toFloat).map .float, hst', ?_, ?_, ?_⟩
    · simp [hlty, Datum.ty]
    · simp [op.eval_mixed P hmixed, Function.comp_def, Datum.val]
    · rw [Instr.exec_binary hx hy, op.floatOpcode_apply]

theorem CompareOp.lower_combines (hσ : σ.Open) (hlhs : σ.Live (.value lhs))
    (hrhs : σ.Live (.value rhs)) (op : CompareOp) :
    Combines ((Operator.compare op).lower lhs rhs) σ (.value lhs) (.value rhs)
      fun _ a b => some (.ofBool (op.eval a b)) := by
  obtain ⟨l, r, c, hemits, hc, hl, hr, hbalanced⟩ := balance_emits hσ hlhs hrhs
  have hopen := hσ.compute c
  cases hbalanced with
  | ints hlty hrty hsem =>
    refine .define hσ hemits hc (by simp [hlty, Ir.Ty.isFloat])
      (icmp_open hopen op.intPredicate l r) rfl rfl
      ⟨⟨rfl, hlty, hrty⟩, by simpa [Instr.operands] using! ⟨hl, hr⟩, by simp [Instr.slot?]⟩ ?_
    intro P st a b hlnum hrnum ha hb
    obtain ⟨st', m, n, hst', rfl, rfl, hm, hn⟩ := hsem P st a b hlnum hrnum ha hb
    refine ⟨st', some (.bool (op.ints m n)), hst', by simp [Datum.ty], rfl, ?_⟩
    rw [Instr.exec_icmp hm hn, IntPredicate.apply, op.intPredicate_holds]
  | floats hlty hrty hsem =>
    refine .define hσ hemits hc (by simp [hlty, Ir.Ty.isFloat])
      (fcmp_open hopen op.floatPredicate l r) rfl rfl
      ⟨⟨rfl, hlty, hrty⟩, by simpa [Instr.operands] using! ⟨hl, hr⟩, by simp [Instr.slot?]⟩ ?_
    intro P st a b hlnum hrnum ha hb
    obtain ⟨st', hst', hmixed, hx, hy⟩ := hsem P st a b hlnum hrnum ha hb
    refine ⟨st', some (.bool (op.floats a.toFloat b.toFloat)), hst', by simp [Datum.ty], ?_, ?_⟩
    · simp [op.eval_mixed hmixed, Datum.val]
    · rw [Instr.exec_fcmp hx hy, FloatPredicate.apply, op.floatPredicate_holds]

theorem LogicOp.lower_combines (hσ : σ.Open) (hlhs : σ.Live (.value lhs))
    (hrhs : σ.Live (.value rhs)) (op : LogicOp) :
    Combines ((Operator.logic op).lower lhs rhs) σ (.value lhs) (.value rhs)
      fun _ a b => some (.ofBool (op.eval a.truth b.truth)) := by
  obtain ⟨l, r, c, c', h⟩ := Converts.pair hσ (truth_converts hσ hlhs) hrhs
    fun τ hτ hrhs => truth_converts hτ hrhs
  have hopen := hσ.compute (c ++ c')
  have hlty := h.left.ty_eq.trans op.ty_opcode.symm
  have hrty := h.right.ty_eq.trans op.ty_opcode.symm
  -- Both sides are made truth values, whatever the first one is.
  have hemits : Emits (do return (← truth lhs, ← truth rhs)) σ (l, r) (c ++ c' ++ []) :=
    h.bind hσ (.pure _)
  rw [List.append_nil] at hemits
  have hlower : (Operator.logic op).lower lhs rhs =
      (do return (← truth lhs, ← truth rhs)) >>= fun v => liftM (binary op.opcode v.1 v.2) := by
    simp only [Operator.lower, bind_assoc, pure_bind]
  rw [hlower]
  refine .define hσ hemits (by simp [h.left.uses, h.right.uses]) rfl
    (binary_open hopen op.opcode l r) rfl rfl
    ⟨⟨hlty, hlty, hrty⟩, by simpa [Instr.operands] using! ⟨h.live_left, h.live_right⟩,
      by simp [Instr.slot?]⟩ ?_
  intro P st a b hlnum hrnum ha hb
  obtain ⟨st', hst', hla, hrb⟩ := h.exec P st a b hlnum hrnum ha hb
  obtain ⟨p, hp, hap⟩ := Value.eval_i1 hla h.left.ty_eq
  obtain ⟨q, hq, hbq⟩ := Value.eval_i1 hrb h.right.ty_eq
  obtain rfl := Val.ofBool_injective hap
  obtain rfl := Val.ofBool_injective hbq
  refine ⟨st', some (.bool (op.eval a.truth b.truth)), hst', ?_, rfl, ?_⟩
  · simp [h.left.ty_eq, Datum.ty]
  · rw [Instr.exec_binary hp hq, op.opcode_apply]

theorem Operator.lower_combines (hσ : σ.Open) (hlhs : σ.Live (.value lhs))
    (hrhs : σ.Live (.value rhs)) (op : Operator) :
    Combines (op.lower lhs rhs) σ (.value lhs) (.value rhs) op.eval := by
  cases op with
  | arith op => exact op.lower_combines hσ hlhs hrhs
  | compare op => exact op.lower_combines hσ hlhs hrhs
  | logic op => exact op.lower_combines hσ hlhs hrhs

end

/-! ## Expressions -/

/-- The store that a memory holds, for the variables of a table. -/
def SymbolTable.view (T : SymbolTable) (memory : Memory) : Store := fun name =>
  (T.lookup? name).map fun symbol => (symbol.slot.ty.read (memory symbol.slot.name)).val

/-- The code of an expression and the operand that it pushes, which stands for its value. -/
structure Expr.Pushes (e : Expr) (σ : Lowering) (operand : Operand) (code : List Instr) :
    Prop where
  computes : σ.Computes code
  live : (σ.compute code).Live operand
  numeric : e.Numeric → operand.Numeric
  uses : ∀ x s, σ.symbols.Owns x s →
    (Uses s code ∨ operand = .storage s ↔ Mention.use x ∈ e.mentions)
  realizes : ∀ P T st, σ.symbols.Le T → e.Numeric →
    Realizes P code st operand (e.eval P (T.view st.memory))

namespace LowerM

theorem push_eq (operand : Operand) (σ : Lowering) :
    push operand σ = .ok () (σ.push operand) := rfl

theorem pop_push (operand : Operand) (σ : Lowering) :
    pop (σ.push operand) = .ok operand σ := rfl

/-- The left operand is loaded first although the right one is on top. -/
theorem popPair_push (lhs rhs : Operand) (σ : Lowering) :
    popPair ((σ.push lhs).push rhs) =
      (do return (← fetch lhs, ← fetch rhs) : LowerM (Value × Value)) σ := by
  unfold popPair
  rw [bind_ok (pop_push _ _), bind_ok (pop_push _ _)]

theorem popValue_push (operand : Operand) (σ : Lowering) :
    popValue (σ.push operand) = fetch operand σ := by
  unfold popValue
  rw [bind_ok (pop_push _ _)]

end LowerM

namespace Expr

/-- The operands of both sides are there, and what is left to emit are their values and the
operator. -/
theorem Pushes.binary {lhs rhs : Expr} {σ : Lowering} {l r : Operand} {c c' : List Instr}
    (hσ : σ.Open) (hl : lhs.Pushes σ l c) (hr : rhs.Pushes (σ.compute c) r c') (op : Operator) :
    ∃ v d, Emits (do op.lower (← fetch l) (← fetch r)) (σ.compute (c ++ c')) v d ∧
      (Expr.binary op lhs rhs).Pushes σ (.value v) (c ++ c' ++ d) := by
  have hopen := hσ.compute (c ++ c')
  have hlivel : (σ.compute (c ++ c')).Live l := by
    rw [← Lowering.compute_compute]
    exact hl.live.compute (hσ.compute c) c'
  have hliver : (σ.compute (c ++ c')).Live r := by
    rw [← Lowering.compute_compute]
    exact hr.live
  obtain ⟨v, w, d, d', hpair⟩ := Converts.pair hopen (fetch_converts hopen hlivel) hliver
    fun τ hτ hr => fetch_converts hτ hr
  obtain ⟨reg, e, hemits, hquiet, hlive, hsem⟩ :=
    op.lower_combines (hopen.compute (d ++ d')) hpair.live_left hpair.live_right
  have hall := hpair.bind (k := fun v w => op.lower v w) hopen hemits
  refine ⟨.reg reg, d ++ d' ++ e, hall, ?_, ?_, fun _ => .reg _, fun x s hs => ?_, ?_⟩
  · exact (hl.computes.append hσ hr.computes).append hσ hall.computes
  · simpa [Lowering.compute_compute] using hlive
  -- Operands that are still in memory are loaded now.
  · simp only [mentions, List.mem_append, ← hl.uses x s hs, ← hr.uses x s hs, uses_append,
      hpair.left.uses, hpair.right.uses, hquiet, reduceCtorEq, or_false]
    itauto
  · rintro P T st hle ⟨hnuml, hnumr⟩
    have hla := hl.realizes P T st hle hnuml
    simp only [eval]
    cases ha : lhs.eval P (T.view st.memory) with
    | none =>
      -- A trap on the left ends the run before the code of the right side.
      rw [ha] at hla
      rw [List.append_assoc]
      exact .trap hla
    | some a =>
      rw [ha] at hla
      obtain ⟨st₁, hst₁, hla⟩ := hla
      -- The right side is evaluated in the same memory.
      have hrb := hr.realizes P T st₁ hle hnumr
      rw [(hl.computes.exec_frame hst₁).1] at hrb
      rw [List.append_assoc]
      cases hb : rhs.eval P (T.view st.memory) with
      | none =>
        rw [hb] at hrb
        exact .append hst₁ (.trap hrb)
      | some b =>
        rw [hb] at hrb
        obtain ⟨st₂, hst₂, hrb⟩ := hrb
        -- The left operand has waited on the stack, and nothing has touched it.
        rw [← Operand.eval_frame hl.live hr.computes hst₂] at hla
        obtain ⟨st₃, hst₃, hv, hw⟩ :=
          hpair.exec P st₂ a b (hl.numeric hnuml) (hr.numeric hnumr) hla hrb
        refine .append hst₁ (.append hst₂ (.append hst₃ ?_))
        exact hsem P st₃ a b (hpair.left.numeric (hl.numeric hnuml))
          (hpair.right.numeric (hr.numeric hnumr)) hv hw

theorem lower_follows (e : Expr) {σ : Lowering} (hσ : σ.Open) :
    Follows (σ.scope.allowAll e.mentions) e.lower σ fun Γ _ σ' => Γ = σ.scope ∧
      ∃ operand code, e.Pushes σ operand code ∧ σ' = (σ.compute code).push operand := by
  induction e generalizing σ with
  | int n =>
    refine ⟨(), _, push_eq _ σ, rfl, .value (.int n.toUInt32.toInt32), [],
      ⟨.nil, ?_, fun _ => .int _, by simp [mentions], ?_⟩, ?_⟩
    · exact .int _
    · exact fun P T st _ _ => .nil rfl
    · simp
  | float x =>
    refine ⟨(), _, push_eq _ σ, rfl, .value (.float x.narrow), [],
      ⟨.nil, ?_, ?_, by simp [mentions], ?_⟩, ?_⟩
    · exact .float (Binary.quiet_narrow x)
    · exact fun hnum => .float (Binary.isNaN_narrow hnum)
    · exact fun P T st _ _ => .nil rfl
    · simp
  | var name =>
    simp only [mentions, Scope.allowAll_cons, Scope.allow, σ.lookup_scope]
    refine .step (a := σ) rfl ?_
    cases hname : σ.symbols.lookup? name with
    | none => exact ⟨σ, rfl⟩
    | some symbol =>
      refine ⟨(), _, rfl, rfl, .storage symbol.slot, [],
        ⟨.nil, ?_, fun _ => .storage _, fun x s hs => ?_, ?_⟩, ?_⟩
      · exact ⟨name, symbol, hname, rfl⟩
      · simp [mentions, hs name symbol hname, eq_comm (a := x)]
      · intro P T st hle _
        have hview : eval P (T.view st.memory) (.var name) = some (st.read symbol.slot).val := by
          simp [eval, SymbolTable.view, hle name symbol hname, Ir.State.read]
        rw [hview]
        exact .nil rfl
      · rw [Lowering.compute_nil]
        rfl
  | binary op lhs rhs ihl ihr =>
    rw [mentions, Scope.allowAll_append]
    refine (ihl hσ).bind ?_
    rintro _ - σ₁ ⟨rfl, l, c, hl, rfl⟩
    have ih := ihr (σ := (σ.compute c).push l) (hσ.compute c)
    refine ih.andThen ?_
    rintro _ - σ₂ ⟨rfl, r, c', hr, rfl⟩
    -- What lies on the stack does not matter to the code of the right side.
    have hr : rhs.Pushes (σ.compute c) r c' :=
      ⟨hr.computes, hr.live, hr.numeric, hr.uses, hr.realizes⟩
    obtain ⟨v, d, hemits, hpushes⟩ := hl.binary hσ hr op
    refine ⟨(), _, ?_, rfl, .value v, c ++ c' ++ d, hpushes, rfl⟩
    have hstate : ((((σ.compute c).push l).compute c').push r) =
        ((σ.compute (c ++ c')).push l).push r := by
      rw [← Lowering.compute_compute]
      rfl
    rw [hstate, bind_congr_run (popPair_push l r _)]
    have hrun := bind_ok hemits.run fun v => push (.value v)
    rw [Lowering.compute_compute] at hrun
    simpa only [bind_assoc, pure_bind, push_eq] using hrun

/-- Code at the current block yields a value of type `ty`, which stands for the value of an
expression under `f`. -/
structure Yields (e : Expr) (σ : Lowering) (ty : Ir.Ty) (f : Val → Val) (v : Value)
    (code : List Instr) : Prop where
  computes : σ.Computes code
  live : (σ.compute code).Live (.value v)
  ty_eq : v.ty = ty
  uses : ∀ x s, σ.symbols.Owns x s → (Uses s code ↔ Mention.use x ∈ e.mentions)
  realizes : ∀ P T st, σ.symbols.Le T → e.Numeric →
    Realizes P code st (.value v) ((e.eval P (T.view st.memory)).map f)

theorem convert_follows (e : Expr) {σ : Lowering} (hσ : σ.Open) {conv : Value → LowerM Value}
    {ty : Ir.Ty} {f : Val → Val} (hconv : ∀ (τ : Lowering) v, τ.Open → τ.Live (.value v) →
      Converts (conv v) τ (.value v) ty f) :
    Follows (σ.scope.allowAll e.mentions) (do e.lower; conv (← popValue)) σ fun Γ v σ' =>
      Γ = σ.scope ∧ ∃ code, e.Yields σ ty f v code ∧ σ' = σ.compute code := by
  refine (e.lower_follows hσ).andThen ?_
  rintro _ - _ ⟨rfl, operand, c, h, rfl⟩
  have hopen := hσ.compute c
  obtain ⟨w, d, hw⟩ := fetch_converts hopen h.live
  obtain ⟨v, d', hv⟩ := hconv _ w (hopen.compute d) hw.live
  have hemits := hw.emits.bind hopen hv.emits
  refine ⟨v, σ.compute (c ++ (d ++ d')), ?_, rfl, c ++ (d ++ d'),
    ⟨?_, ?_, hv.ty_eq, fun x s hs => ?_, ?_⟩, rfl⟩
  · rw [bind_congr_run (popValue_push operand _), hemits.run, Lowering.compute_compute]
  · exact h.computes.append hσ hemits.computes
  · simpa [Lowering.compute_compute] using hv.live
  · simp [← h.uses x s hs, hw.uses, hv.uses]
  · intro P T st hle hnum
    have hoperand := h.realizes P T st hle hnum
    cases ha : e.eval P (T.view st.memory) with
    | none =>
      rw [ha] at hoperand
      exact .trap hoperand
    | some a =>
      rw [ha] at hoperand
      obtain ⟨st₁, hst₁, ha₁⟩ := hoperand
      obtain ⟨st₂, hst₂, ha₂⟩ := hw.realizes P st₁ a (h.numeric hnum) ha₁
      refine .append hst₁ (.append hst₂ ?_)
      exact hv.realizes P st₂ a (hw.numeric (h.numeric hnum)) ha₂

theorem lowerTruth_follows (e : Expr) {σ : Lowering} (hσ : σ.Open) :
    Follows (σ.scope.allowAll e.mentions) e.lowerTruth σ fun Γ v σ' =>
      Γ = σ.scope ∧ ∃ code, e.Yields σ .i1 (fun a => .ofBool a.truth) v code ∧
        σ' = σ.compute code :=
  e.convert_follows hσ fun _ _ => truth_converts

theorem lowerInto_follows (e : Expr) {σ : Lowering} (hσ : σ.Open) (slot : Slot) :
    Follows (σ.scope.allowAll e.mentions) (e.lowerInto slot) σ fun Γ _ σ' =>
      Γ = σ.scope ∧ ∃ v code, e.Yields σ slot.ty (Val.into slot.ty) v code ∧
        σ' = (σ.compute code).store v slot := by
  have hlower : e.lowerInto slot =
      (do e.lower; convert (← popValue) slot.ty) >>= fun v => liftM (store v slot) := by
    simp only [lowerInto, bind_assoc]
  rw [hlower]
  refine (e.convert_follows hσ fun _ _ hτ hv => convert_converts hτ hv slot.ty).andThen ?_
  rintro _ v _ ⟨rfl, code, h, rfl⟩
  exact ⟨(), _, lift_ok (store_open (hσ.compute code) v slot), rfl, v, code, h, rfl⟩

end Expr

end TinyC
