import TinyC.Proofs.Lowering.Statement

/-!
# Folding of constants

A constant is converted when the program is lowered, and a register when the program runs. The two
ways are written apart: a constant is looked at, and for a register an instruction is emitted that
compares or converts it.

Main statement: both ways give the same, except that a constant that is not a number counts as true,
while the comparison of a register that holds it does not hold.
-/

namespace TinyC

open Ir LowerM BuildM

theorem Binary.isZero_of_isNaN {x : Binary32} (h : x.isNaN = true) : x.isZero = false := by
  -- The exponent of what is not a number is the greatest one, and that of a zero is zero.
  have hexponent : x.exponent = 255 := by
    simp only [isNaN, Bool.and_eq_true, decide_eq_true_eq] at h
    exact h.1
  simp [isZero, hexponent]

/-- No ordered comparison holds of what is not a number. -/
theorem Ir.FloatPredicate.holds_of_isNaN (p : FloatPredicate) {x y : Binary32}
    (h : x.isNaN = true ∨ y.isNaN = true) : p.holds x y = false := by
  rcases h with h | h
  all_goals cases p <;> simp [holds, Binary.less, Binary.same, h]

namespace Ir.Datum

/-- A datum as a constant. -/
def const : Datum → Value
  | .int n => .int n
  | .float x => .float x
  | .bool b => .bool b

@[simp] theorem ty_const (d : Datum) : d.const.ty = d.ty := by
  cases d <;> rfl

theorem const_injective : Function.Injective const := by
  intro d d' h
  cases d <;> cases d' <;> cases h <;> rfl

def IsNaN : Datum → Prop
  | .float x => x.isNaN = true
  | _ => False

/-- What a constant is folded to in another type. -/
def fold : Ir.Ty → Datum → Datum
  | .i1, .int n => .bool (n ≠ 0)
  | .i1, .float x => .bool (!x.isZero)
  | .i32, .float x => .int x.toInt32
  | .i32, .bool b => .int (if b then 1 else 0)
  | .f32, .int n => .float (.ofInt n.toInt)
  | .f32, .bool b => .float (if b then .one else .zero)
  | _, d => d

/-- What becomes of a register that holds the datum: truth is a comparison with zero, and all else
a cast. -/
def coerce : Ir.Ty → Datum → Datum
  | .i1, .int n => .bool (IntPredicate.ne.holds n 0)
  | .i1, .float x => .bool (FloatPredicate.one.holds x .zero)
  | ty, d => d.fold ty

theorem fold_eq_coerce_iff (d : Datum) (ty : Ir.Ty) :
    d.fold ty = d.coerce ty ↔ ¬(ty = .i1 ∧ d.IsNaN) := by
  cases d with
  | int n => cases ty <;> simp [IsNaN, fold, coerce, IntPredicate.holds]
  | bool b => cases ty <;> simp [IsNaN, fold, coerce]
  | float x =>
    cases ty with
    | i32 => simp [coerce]
    | f32 => simp [coerce]
    | i1 =>
      simp only [fold, coerce, IsNaN, Datum.bool.injEq, true_and, Bool.not_eq_true]
      cases hx : x.isNaN with
      | false => simpa [FloatPredicate.holds] using (Binary.less_or_less_zero hx).symm
      | true =>
        -- The pattern is none of a zero, and the comparison does not hold.
        simp [Binary.isZero_of_isNaN hx, FloatPredicate.one.holds_of_isNaN (.inl hx)]

end Ir.Datum

/-! ## Conversions -/

/-- The steps of lowering that make one value from another. -/
inductive Coercion
  | truth
  | convert (ty : Ir.Ty)
  | promote
deriving DecidableEq, Repr

namespace Coercion

def lower : Coercion → Value → LowerM Value
  | .truth => LowerM.truth
  | .convert ty => fun v => LowerM.convert v ty
  | .promote => LowerM.promote

/-- The type of the result, by the type of the value. -/
def target : Coercion → Ir.Ty → Ir.Ty
  | .truth, _ => .i1
  | .convert ty, _ => ty
  | .promote, ty => if ty = .i1 then .i32 else ty

/-- All of them are conversions to a type. -/
theorem lower_eq_convert (κ : Coercion) (v : Value) :
    κ.lower v = LowerM.convert v (κ.target v.ty) := by
  cases κ with
  | convert ty => rfl
  | truth =>
    by_cases hty : v.ty = .i1
    · -- A truth value stays as it is in both.
      cases v with
      | int n => cases hty
      | float x => cases hty
      | bool b => rfl
      | reg r =>
        have hr : r.ty = .i1 := hty
        simp [lower, LowerM.truth, LowerM.convert, target, Value.ty, hr]
    · simp [lower, LowerM.convert, target, hty]
  | promote =>
    by_cases hty : v.ty = .i1
    · simp [lower, LowerM.promote, target, hty]
    · simp [lower, LowerM.promote, LowerM.convert, target, hty]

/-- In any state, the constant `d` is converted to the constant `c`, and nothing is emitted. -/
def Folds (κ : Coercion) (d c : Datum) : Prop :=
  ∀ σ : Lowering, κ.lower d.const σ = .ok c.const σ

/-- For a register of the type of `d`, code is emitted that computes `c` if the register holds
`d`. -/
def Computes (κ : Coercion) (d c : Datum) : Prop :=
  ∀ (σ : Lowering) (r : Reg), σ.Open → r.ty = d.ty →
    ∃ w code, κ.lower (.reg r) σ = .ok w (σ.compute code) ∧
      ∀ (P : Primitives) (st : Ir.State), st.registers r.name = some d →
        ∃ st', exec P code st = some st' ∧ w.eval st' = some c

/-! ## Constants -/

theorem folds (κ : Coercion) (d : Datum) : κ.Folds d (d.fold (κ.target d.ty)) := by
  intro σ
  rw [lower_eq_convert, Datum.ty_const]
  cases d <;> cases κ.target _ <;> rfl

/-! ## Registers -/

section

variable {κ : Coercion} {d c : Datum}

/-- A register that has the type already is its own result. -/
theorem computes_self (hty : κ.target d.ty = d.ty) : κ.Computes d d := by
  intro σ r _ hr
  have htarget : κ.target (Value.reg r).ty = (Value.reg r).ty := by
    simp [Value.ty, hr, hty]
  refine ⟨.reg r, [], ?_, fun P st hst => ⟨st, rfl, by simp [Value.eval, hst, hr]⟩⟩
  rw [lower_eq_convert, htarget, Lowering.compute_nil]
  simp only [LowerM.convert, if_true]
  rfl

/-- Any other register is converted by one instruction. -/
theorem computes_of_instr (instr : Reg → Reg → Instr)
    (hrun : ∀ (σ : Lowering) (r : Reg), σ.Open → r.ty = d.ty →
      LowerM.convert (.reg r) (κ.target d.ty) σ =
        .ok (.reg (σ.builder.nextReg c.ty)) (σ.compute [instr (σ.builder.nextReg c.ty) r]))
    (hexec : ∀ (P : Primitives) (st : Ir.State) (dest r : Reg), (Value.reg r).eval st = some d →
      (instr dest r).exec P st = some (st.define dest c)) : κ.Computes d c := by
  intro σ r hσ hr
  have hlower : κ.lower (.reg r) = LowerM.convert (.reg r) (κ.target d.ty) := by
    rw [lower_eq_convert, Value.ty, hr]
  refine ⟨_, _, (congrFun hlower σ).trans (hrun σ r hσ hr), fun P st hst => ?_⟩
  refine ⟨_, ?_, Value.eval_define st (σ.builder.nextReg c.ty) rfl⟩
  rw [exec_singleton]
  exact hexec P st _ r (by simp [Value.eval, hst, hr])

/-- Numbers are cast to one another, and truth values to numbers. -/
theorem computes_cast (op : CastOp) (hsource : d.ty = op.source)
    (htarget : κ.target d.ty = op.target) (hty : c.ty = op.target) (happly : op.apply d = some c) :
    κ.Computes d c := by
  refine computes_of_instr (fun dest r => .cast dest op (.reg r)) ?_ ?_
  · intro σ r hσ hr
    obtain ⟨name, ty⟩ := r
    obtain rfl : ty = op.source := hr.trans hsource
    have hconvert : LowerM.convert (.reg ⟨name, op.source⟩) op.target =
        liftM (cast op (.reg ⟨name, op.source⟩) op.target) := by
      cases op <;> rfl
    rw [htarget, hty, hconvert]
    exact lift_ok (cast_open hσ op _ op.target)
  · intro P st dest r hr
    rw [Instr.exec_cast hr, happly]
    rfl

end

theorem computes (κ : Coercion) (d : Datum) : κ.Computes d (d.coerce (κ.target d.ty)) := by
  generalize htarget : κ.target d.ty = ty
  cases d with
  | int n =>
    cases ty with
    | i1 =>
      refine computes_of_instr (fun dest r => .icmp dest .ne (.reg r) (.int 0)) ?_ ?_
      · rintro σ ⟨name, _⟩ hσ rfl
        rw [htarget]
        exact lift_ok (icmp_open hσ .ne _ (.int 0))
      · intro P st dest r hr
        exact Instr.exec_icmp hr (b := .int 0) rfl dest .ne
    | i32 => exact computes_self htarget
    | f32 => exact computes_cast .sitofp rfl htarget rfl rfl
  | float x =>
    cases ty with
    | i1 =>
      refine computes_of_instr (fun dest r => .fcmp dest .one (.reg r) (.float .zero)) ?_ ?_
      · rintro σ ⟨name, _⟩ hσ rfl
        rw [htarget]
        exact lift_ok (fcmp_open hσ .one _ (.float .zero))
      · intro P st dest r hr
        exact Instr.exec_fcmp hr (b := .float .zero) rfl dest .one
    | i32 => exact computes_cast .fptosi rfl htarget rfl rfl
    | f32 => exact computes_self htarget
  | bool b =>
    cases ty with
    | i1 => exact computes_self htarget
    | i32 => exact computes_cast .zext rfl htarget rfl rfl
    | f32 => exact computes_cast .uitofp rfl htarget rfl rfl

/-! ## Agreement -/

section

variable {κ : Coercion} {d c c' : Datum}

theorem Folds.unique (h : κ.Folds d c) (h' : κ.Folds d c') : c = c' := by
  have hconst := (h (.new "")).symm.trans (h' (.new ""))
  exact Datum.const_injective (EStateM.Result.ok.inj hconst).1

theorem Computes.unique (h : κ.Computes d c) (h' : κ.Computes d c') : c = c' := by
  -- Both speak of the code emitted at the start of a function, for a register that holds `d`.
  have hopen : (Lowering.start "").Open := ⟨0, _, Lowering.at_start "", rfl⟩
  obtain ⟨w, code, hrun, hexec⟩ := h (.start "") ⟨"", d.ty⟩ hopen rfl
  obtain ⟨w', code', hrun', hexec'⟩ := h' (.start "") ⟨"", d.ty⟩ hopen rfl
  have hresult := hrun.symm.trans hrun'
  rw [EStateM.Result.ok.injEq] at hresult
  obtain ⟨rfl, hstate⟩ := hresult
  have hcode : code = code' := by
    have hinstrs := congrArg (fun σ : Lowering => σ.builder.instrs) hstate
    simpa [Lowering.compute, Builder.Open.instrs_compute hopen] using hinstrs
  subst hcode
  let P : Primitives := ⟨fun _ _ => none, fun _ _ => none, fun _ _ => none, fun _ _ => none,
    fun _ _ => none, fun _ _ => none, fun _ _ => none⟩
  let st : Ir.State := ⟨fun _ => 0, fun _ => some d⟩
  obtain ⟨st₁, hst₁, hw⟩ := hexec P st rfl
  obtain ⟨st₂, hst₂, hw'⟩ := hexec' P st rfl
  obtain rfl := Option.some.inj (hst₁.symm.trans hst₂)
  exact Option.some.inj (hw.symm.trans hw')

end

/-- Every constant is folded, and the code for a register that holds it computes a value. The two
are equal unless the truth is asked of what is not a number. -/
theorem folds_eq_computes_iff (κ : Coercion) (d : Datum) :
    (∃ c, κ.Folds d c) ∧ (∃ c, κ.Computes d c) ∧
      ∀ c c', κ.Folds d c → κ.Computes d c' →
        (c = c' ↔ ¬(κ.target d.ty = .i1 ∧ d.IsNaN)) := by
  refine ⟨⟨_, κ.folds d⟩, ⟨_, κ.computes d⟩, fun c c' hc hc' => ?_⟩
  rw [hc.unique (κ.folds d), hc'.unique (κ.computes d)]
  exact d.fold_eq_coerce_iff _

/-- A constant that is not a number is true, and a register that holds it is not. -/
theorem truth_nan_disagrees :
    Folds .truth (.float ⟨0x7fc00000⟩) (.bool true) ∧
      Computes .truth (.float ⟨0x7fc00000⟩) (.bool false) := by
  constructor
  · exact folds .truth (.float ⟨0x7fc00000⟩)
  · exact computes .truth (.float ⟨0x7fc00000⟩)

end Coercion

end TinyC
