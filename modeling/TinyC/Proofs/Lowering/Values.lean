import TinyC.Proofs.Ir.Semantics
import TinyC.Proofs.Lowering.Moves
import TinyC.Proofs.Program.Semantics

/-!
# Lowering of values

Conversions and operators emit straight-line code at an open block and never fail. `Emits` says
which code that is, and `Realizes` what the code computes when it runs: the value that the source
language gives to the operation, or a trap where it traps. A truth value in a register stands for
the integer zero or one.
-/

namespace TinyC

open Ir LowerM BuildM

/-! ## Running steps of lowering -/

namespace LowerM

variable {α β : Type} {σ σ' : Lowering}

theorem bind_ok {x : LowerM α} {a : α} (h : x σ = .ok a σ') (f : α → LowerM β) :
    (x >>= f) σ = f a σ' := by
  simp only [bind, EStateM.bind, h]

theorem bind_error {x : LowerM α} {e : Error} (h : x σ = .error e σ') (f : α → LowerM β) :
    (x >>= f) σ = .error e σ' := by
  simp only [bind, EStateM.bind, h]

theorem bind_congr_run {x y : LowerM α} {τ : Lowering} (h : x σ = y τ) (f : α → LowerM β) :
    (x >>= f) σ = (y >>= f) τ := by
  simp only [bind, EStateM.bind, h]

theorem lift_ok {x : BuildM α} {a : α} {b : Builder} (h : x σ.builder = .ok a b) :
    (liftM x : LowerM α) σ = .ok a { σ with builder := b } := by
  change LowerM.build x σ = _
  simp only [LowerM.build, h]

theorem lift_error {x : BuildM α} {e : Ir.Error} {b : Builder} (h : x σ.builder = .error e b) :
    (liftM x : LowerM α) σ = .error (.invalidIr e) { σ with builder := b } := by
  change LowerM.build x σ = _
  simp only [LowerM.build, h]

/-! ### Declarations -/

variable {name : String}

theorem get_bind (f : Lowering → LowerM α) : (get >>= f) σ = f σ σ := rfl

theorem declare_taken {existing : Symbol} (h : σ.symbols.lookup? name = some existing) (ty : Ty) :
    declare name ty σ = .error (.semantic (.redeclared name existing.ty)) σ := by
  rw [declare, get_bind, h]
  rfl

theorem declare_refused {e : Ir.Error} (hname : σ.symbols.lookup? name = none)
    (he : σ.builder.refusal? = some e) (ty : Ty) : declare name ty σ = .error (.invalidIr e) σ := by
  rw [declare, get_bind, hname]
  exact bind_error (lift_error (alloca_refused he name ty.slotTy)) _

/-- Making a slot declares nothing, so the table never objects to a name that was free before. -/
theorem declare_open (hσ : σ.Open) (hname : σ.symbols.lookup? name = none) (ty : Ty) :
    declare name ty σ = .ok (σ.builder.nextSlot name ty.slotTy) (σ.declare name ty) := by
  rw [declare, get_bind, hname]
  dsimp only
  rw [bind_ok (lift_ok (alloca_open hσ name ty.slotTy)), get_bind, SymbolTable.declare, hname]
  rfl

theorem declare_eq_ok {ty : Ty} {slot : Slot} (h : declare name ty σ = .ok slot σ') :
    σ.symbols.lookup? name = none ∧ slot = σ.builder.nextSlot name ty.slotTy ∧
      σ' = σ.declare name ty := by
  cases hname : σ.symbols.lookup? name with
  | some existing =>
    rw [declare_taken hname] at h
    cases h
  | none =>
    cases hrefusal : σ.builder.refusal? with
    | some e =>
      rw [declare_refused hname hrefusal] at h
      cases h
    | none =>
      rw [declare_open (Builder.open_of_refusal? hrefusal) hname] at h
      cases h
      exact ⟨rfl, rfl, rfl⟩

end LowerM

/-- A step fails as a check does, with the error of the check, and where the check succeeds it ends
as `Q` says. -/
def Follows {α β : Type} (c : Checked β) (x : LowerM α) (σ : Lowering)
    (Q : β → α → Lowering → Prop) : Prop :=
  match c with
  | .ok b => ∃ a σ', x σ = .ok a σ' ∧ Q b a σ'
  | .error e => ∃ σ', x σ = .error (.semantic e) σ'

namespace Follows

variable {α α' β β' : Type} {c : Checked β} {x : LowerM α} {k : α → LowerM α'} {σ : Lowering}
  {Q : β → α → Lowering → Prop}

theorem of_run {y : LowerM α} {τ : Lowering} (h : x σ = y τ) (hy : Follows c y τ Q) :
    Follows c x σ Q := by
  unfold Follows at hy ⊢
  rwa [h]

theorem bind {f : β → Checked β'} {R : β' → α' → Lowering → Prop} (hx : Follows c x σ Q)
    (hk : ∀ b a σ', Q b a σ' → Follows (f b) (k a) σ' R) : Follows (c >>= f) (x >>= k) σ R := by
  cases c with
  | error e =>
    obtain ⟨σ', hσ'⟩ := hx
    exact ⟨σ', bind_error hσ' k⟩
  | ok b =>
    obtain ⟨a, σ', hσ', hQ⟩ := hx
    exact .of_run (bind_ok hσ' k) (hk b a σ' hQ)

theorem mono {R : β → α → Lowering → Prop} (hx : Follows c x σ Q)
    (h : ∀ b a σ', Q b a σ' → R b a σ') : Follows c x σ R := by
  cases c with
  | error e => exact hx
  | ok b =>
    obtain ⟨a, σ', hσ', hQ⟩ := hx
    exact ⟨a, σ', hσ', h b a σ' hQ⟩

/-- The check has nothing to say about the step in front. -/
theorem step {R : β → α' → Lowering → Prop} {a : α} {σ' : Lowering} (hx : x σ = .ok a σ')
    (hk : Follows c (k a) σ' R) : Follows c (x >>= k) σ R :=
  .of_run (bind_ok hx k) hk

/-- The check has nothing to say about the steps behind. -/
theorem andThen {R : β → α' → Lowering → Prop} (hx : Follows c x σ Q)
    (hk : ∀ b a σ', Q b a σ' → ∃ a' σ'', k a σ' = .ok a' σ'' ∧ R b a' σ'') :
    Follows c (x >>= k) σ R := by
  cases c with
  | error e =>
    obtain ⟨σ', hσ'⟩ := hx
    exact ⟨σ', bind_error hσ' k⟩
  | ok b =>
    obtain ⟨a, σ', hσ', hQ⟩ := hx
    obtain ⟨a', σ'', hσ'', hR⟩ := hk b a σ' hQ
    exact ⟨a', σ'', by rw [bind_ok hσ', hσ''], hR⟩

end Follows

namespace Lowering

/-- Put an operand on the stack. -/
def push (σ : Lowering) (operand : Operand) : Lowering :=
  { σ with stack := operand :: σ.stack }

/-- The operand is a constant, in a register of the current block or the slot of a variable. -/
def Live (σ : Lowering) : Operand → Prop
  | .value v => v.Live σ.builder.instrs σ.builder.temporaries
  | .storage slot => σ.HasSlot slot

/-- The code can be added to the current block. -/
abbrev Computes (σ : Lowering) (code : List Instr) : Prop :=
  Computation σ.HasSlot σ.builder.instrs σ.builder.temporaries code

@[simp] theorem compute_nil (σ : Lowering) : σ.compute [] = σ := by
  simp [compute]

theorem compute_compute (σ : Lowering) (code code' : List Instr) :
    (σ.compute code).compute code' = σ.compute (code ++ code') := by
  simp [compute, Builder.compute_compute]

variable {σ : Lowering}

theorem Open.compute (h : σ.Open) (code : List Instr) : (σ.compute code).Open :=
  Builder.Open.compute h code

theorem Live.compute {operand : Operand} (h : σ.Live operand) (hσ : σ.Open) (code : List Instr) :
    (σ.compute code).Live operand := by
  cases operand with
  | value v =>
    unfold Live Lowering.compute
    rw [Builder.Open.instrs_compute hσ code]
    exact Value.Live.mono h code (Nat.le_add_right _ _)
  | storage slot => exact h

theorem Computes.append {code code' : List Instr} (hσ : σ.Open) (h : σ.Computes code)
    (h' : (σ.compute code).Computes code') : σ.Computes (code ++ code') := by
  refine Computation.append h ?_
  rw [← Builder.Open.instrs_compute hσ code]
  exact h'

end Lowering

/-- From a state, a step gives a result, adds code to the current block and does nothing else. -/
structure Emits {α : Type} (x : LowerM α) (σ : Lowering) (a : α) (code : List Instr) : Prop where
  run : x σ = .ok a (σ.compute code)
  computes : σ.Computes code

namespace Emits

variable {α β : Type} {σ : Lowering}

theorem pure (a : α) : Emits (Pure.pure a) σ a [] := ⟨by rw [Lowering.compute_nil]; rfl, .nil⟩

theorem bind {x : LowerM α} {f : α → LowerM β} {a : α} {b : β} {code code' : List Instr}
    (hσ : σ.Open) (hx : Emits x σ a code) (hf : Emits (f a) (σ.compute code) b code') :
    Emits (x >>= f) σ b (code ++ code') where
  run := by rw [bind_ok hx.run, hf.run, Lowering.compute_compute]
  computes := hx.computes.append hσ hf.computes

/-- A single instruction that makes a register. -/
theorem define {x : BuildM Value} {ty : Ir.Ty} {i : Instr} (hσ : σ.Open)
    (hrun : x σ.builder = .ok (.reg (σ.builder.nextReg ty)) (σ.builder.compute [i]))
    (hdest : i.dest? = some (σ.builder.nextReg ty))
    (hfits : i.Fits σ.HasSlot σ.builder.instrs σ.builder.temporaries) :
    Emits (liftM x) σ (.reg (σ.builder.nextReg ty)) [i] ∧
      (σ.compute [i]).Live (.value (.reg (σ.builder.nextReg ty))) := by
  refine ⟨⟨lift_ok hrun, .single hdest rfl hfits⟩, ?_⟩
  unfold Lowering.Live
  rw [show (σ.compute [i]).builder.instrs = _ from Builder.Open.instrs_compute hσ [i]]
  exact .reg (List.mem_append_right _ (List.mem_singleton_self i)) hdest rfl (Nat.le_refl _)

end Emits

/-! ## What code computes -/

/-- The value of the source language that a datum stands for. -/
def Ir.Datum.val : Datum → Val
  | .int n => .int n
  | .float x => .float x
  | .bool b => .ofBool b

/-- A value of the source language as a datum. -/
def Val.datum : Val → Datum
  | .int n => .int n
  | .float x => .float x

@[simp] theorem Val.val_datum (v : Val) : v.datum.val = v := by
  cases v <;> rfl

theorem Val.ty_datum (v : Val) : v.datum.ty = v.ty.slotTy := by
  cases v <;> rfl

/-- What an operand stands for in a state. -/
def Operand.eval (st : Ir.State) : Operand → Option Val
  | .value v => (v.eval st).map Datum.val
  | .storage slot => some (st.read slot).val

/-- Code runs to a state in which the operand stands for a value, or traps if there is none. -/
def Realizes (P : Primitives) (code : List Instr) (st : Ir.State) (operand : Operand) :
    Option Val → Prop
  | some w => ∃ st', exec P code st = some st' ∧ operand.eval st' = some w
  | none => exec P code st = none

namespace Realizes

variable {P : Primitives} {code code' : List Instr} {st st₁ : Ir.State} {operand : Operand}

theorem nil {w : Val} (h : operand.eval st = some w) : Realizes P [] st operand (some w) :=
  ⟨st, rfl, h⟩

theorem append {o : Option Val} (hexec : exec P code st = some st₁)
    (h : Realizes P code' st₁ operand o) : Realizes P (code ++ code') st operand o := by
  cases o with
  | none => exact (exec_append_of_eq_some hexec code').trans h
  | some w =>
    obtain ⟨st', hst', hw⟩ := h
    exact ⟨st', (exec_append_of_eq_some hexec code').trans hst', hw⟩

theorem trap (hexec : exec P code st = none) : Realizes P (code ++ code') st operand none := by
  simp [Realizes, exec_append, hexec]

theorem of_exec {o : Option Val} {st' : Ir.State} (h : Realizes P code st operand o)
    (hexec : exec P code st = some st') : ∃ w, o = some w ∧ operand.eval st' = some w := by
  cases o with
  | none => rw [show exec P code st = none from h] at hexec; cases hexec
  | some w =>
    obtain ⟨st₁, hst₁, hw⟩ := h
    obtain rfl := Option.some.inj (hst₁.symm.trans hexec)
    exact ⟨w, rfl, hw⟩

/-- A single instruction realizes what it puts into its register. -/
theorem define {i : Instr} {r : Reg} {o : Option Datum} (hexec : i.exec P st = o.map (st.define r))
    (hty : ∀ d ∈ o, d.ty = r.ty) : Realizes P [i] st (.value (.reg r)) (o.map Datum.val) := by
  cases o with
  | none => simpa [Realizes] using hexec
  | some d =>
    refine ⟨st.define r d, by simpa using hexec, ?_⟩
    simp [Operand.eval, Value.eval_define st r (hty d rfl)]

end Realizes

/-- Code that computes leaves the operands at hand as they are. -/
theorem Operand.eval_frame {P : Primitives} {σ : Lowering} {operand : Operand} {code : List Instr}
    {st st' : Ir.State} (hlive : σ.Live operand) (hcode : σ.Computes code)
    (hexec : exec P code st = some st') : operand.eval st' = operand.eval st := by
  cases operand with
  | value v => simp only [Operand.eval, hcode.eval_live hexec hlive]
  | storage slot => simp only [Operand.eval, Ir.State.read, (hcode.exec_frame hexec).1]

namespace Operand

def ty : Operand → Ir.Ty
  | .value v => v.ty
  | .storage slot => slot.ty

/-- The operand is not a constant that is no number. -/
inductive Numeric : Operand → Prop
  | int (n : Int32) : Numeric (.value (.int n))
  | float {x : Binary32} : x.isNaN = false → Numeric (.value (.float x))
  | bool (b : Bool) : Numeric (.value (.bool b))
  | reg (r : Reg) : Numeric (.value (.reg r))
  | storage (slot : Slot) : Numeric (.storage slot)

end Operand

/-! ## Data of a known type -/

theorem Ir.Value.eval_i1 {st : Ir.State} {v : Value} {a : Val}
    (h : (Operand.value v).eval st = some a) (hty : v.ty = .i1) :
    ∃ b, v.eval st = some (.bool b) ∧ a = .ofBool b := by
  obtain ⟨d, hd, rfl⟩ := Option.map_eq_some_iff.mp h
  have hdty := (Value.ty_of_eval hd).trans hty
  cases d with
  | bool b => exact ⟨b, hd, rfl⟩
  | int n => cases hdty
  | float x => cases hdty

theorem Ir.Value.eval_i32 {st : Ir.State} {v : Value} {a : Val}
    (h : (Operand.value v).eval st = some a) (hty : v.ty = .i32) :
    ∃ n, v.eval st = some (.int n) ∧ a = .int n := by
  obtain ⟨d, hd, rfl⟩ := Option.map_eq_some_iff.mp h
  have hdty := (Value.ty_of_eval hd).trans hty
  cases d with
  | int n => exact ⟨n, hd, rfl⟩
  | bool b => cases hdty
  | float x => cases hdty

theorem Ir.Value.eval_f32 {st : Ir.State} {v : Value} {a : Val}
    (h : (Operand.value v).eval st = some a) (hty : v.ty = .f32) :
    ∃ x, v.eval st = some (.float x) ∧ a = .float x := by
  obtain ⟨d, hd, rfl⟩ := Option.map_eq_some_iff.mp h
  have hdty := (Value.ty_of_eval hd).trans hty
  cases d with
  | float x => exact ⟨x, hd, rfl⟩
  | bool b => cases hdty
  | int n => cases hdty

/-! ## Conversions -/

/-- A value as what a slot of a type can hold. -/
def Val.into : Ir.Ty → Val → Val
  | .i1, v => .ofBool v.truth
  | .i32, v => v.convert .int
  | .f32, v => v.convert .float

theorem Val.into_slotTy (ty : Ty) (v : Val) : v.into ty.slotTy = v.convert ty := by
  cases ty <;> rfl

theorem Val.into_f32_ofBool (b : Bool) :
    (Val.ofBool b).into .f32 = .float (if b then .one else .zero) := by
  rw [← Binary.ofInt_ofBool b]
  cases b <;> rfl

/-- A conversion to the type at hand changes nothing. -/
theorem Ir.Value.into_ty {st : Ir.State} {v : Value} {a : Val}
    (h : (Operand.value v).eval st = some a) : a.into v.ty = a := by
  cases hty : v.ty with
  | i1 =>
    obtain ⟨b, -, rfl⟩ := Value.eval_i1 h hty
    simp [Val.into]
  | i32 =>
    obtain ⟨n, -, rfl⟩ := Value.eval_i32 h hty
    rfl
  | f32 =>
    obtain ⟨x, -, rfl⟩ := Value.eval_f32 h hty
    rfl

/-- A step makes the value `w` of type `ty` from an operand. Wherever the operand stands for `a`,
the value stands for `f a`. -/
structure Conversion (x : LowerM Value) (σ : Lowering) (operand : Operand) (ty : Ir.Ty)
    (f : Val → Val) (w : Value) (code : List Instr) : Prop where
  emits : Emits x σ w code
  live : (σ.compute code).Live (.value w)
  ty_eq : w.ty = ty
  numeric : operand.Numeric → (Operand.value w).Numeric
  uses : ∀ s, Uses s code ↔ operand = .storage s
  realizes : ∀ P st a, operand.Numeric → operand.eval st = some a →
    Realizes P code st (.value w) (some (f a))

def Converts (x : LowerM Value) (σ : Lowering) (operand : Operand) (ty : Ir.Ty) (f : Val → Val) :
    Prop :=
  ∃ w code, Conversion x σ operand ty f w code

/-- Two values made one after the other. -/
structure ConversionPair (x y : LowerM Value) (σ : Lowering) (lhs rhs : Operand) (lty rty : Ir.Ty)
    (f g : Val → Val) (l r : Value) (code code' : List Instr) : Prop where
  left : Conversion x σ lhs lty f l code
  right : Conversion y (σ.compute code) rhs rty g r code'
  live_left : (σ.compute (code ++ code')).Live (.value l)
  live_right : (σ.compute (code ++ code')).Live (.value r)
  exec : ∀ P st a b, lhs.Numeric → rhs.Numeric → lhs.eval st = some a → rhs.eval st = some b →
    ∃ st', exec P (code ++ code') st = some st' ∧
      (Operand.value l).eval st' = some (f a) ∧ (Operand.value r).eval st' = some (g b)

namespace Converts

variable {σ : Lowering} {operand : Operand} {ty : Ir.Ty} {f : Val → Val}

/-- Nothing is emitted where the result is known. -/
theorem pure {v w : Value} (hw : σ.Live (.value w)) (hty : w.ty = ty)
    (hnum : (Operand.value v).Numeric → (Operand.value w).Numeric)
    (h : ∀ st a, (Operand.value v).Numeric → (Operand.value v).eval st = some a →
      (Operand.value w).eval st = some (f a)) : Converts (Pure.pure w) σ (.value v) ty f :=
  ⟨w, [], .pure w, by simpa using hw, hty, hnum, by simp,
    fun _ st a hnum ha => .nil (h st a hnum ha)⟩

/-- The result is made by a single instruction. -/
theorem define {x : BuildM Value} {i : Instr} (hσ : σ.Open)
    (hrun : x σ.builder = .ok (.reg (σ.builder.nextReg ty)) (σ.builder.compute [i]))
    (hdest : i.dest? = some (σ.builder.nextReg ty))
    (hfits : i.Fits σ.HasSlot σ.builder.instrs σ.builder.temporaries)
    (huses : ∀ s, i.slot? = some s ↔ operand = .storage s)
    (h : ∀ P st a, operand.eval st = some a → ∃ d : Datum, d.ty = ty ∧ d.val = f a ∧
      i.exec P st = some (st.define (σ.builder.nextReg ty) d)) :
    Converts (liftM x) σ operand ty f := by
  obtain ⟨hemits, hlive⟩ := Emits.define hσ hrun hdest hfits
  refine ⟨_, _, hemits, hlive, rfl, fun _ => .reg _, by simpa using huses,
    fun P st a _ ha => ?_⟩
  obtain ⟨d, hty, hval, hexec⟩ := h P st a ha
  rw [← hval]
  exact Realizes.define (o := some d) hexec (by simpa using! hty)

theorem congr {x : LowerM Value} {g : Val → Val} (h : Converts x σ operand ty f)
    (hfg : ∀ st a, operand.eval st = some a → f a = g a) : Converts x σ operand ty g := by
  obtain ⟨w, code, h⟩ := h
  refine ⟨w, code, h.emits, h.live, h.ty_eq, h.numeric, h.uses, fun P st a hnum ha => ?_⟩
  rw [← hfg st a ha]
  exact h.realizes P st a hnum ha

theorem pair {x y : LowerM Value} {lhs rhs : Operand} {lty rty : Ir.Ty} {g : Val → Val}
    (hσ : σ.Open) (hx : Converts x σ lhs lty f) (hrhs : σ.Live rhs)
    (hy : ∀ τ : Lowering, τ.Open → τ.Live rhs → Converts y τ rhs rty g) :
    ∃ l r code code', ConversionPair x y σ lhs rhs lty rty f g l r code code' := by
  obtain ⟨l, code, hl⟩ := hx
  obtain ⟨r, code', hr⟩ := hy (σ.compute code) (hσ.compute code) (hrhs.compute hσ code)
  refine ⟨l, r, code, code', hl, hr, ?_, ?_, ?_⟩
  · rw [← Lowering.compute_compute]
    exact hl.live.compute (hσ.compute code) code'
  · rw [← Lowering.compute_compute]
    exact hr.live
  · intro P st a b hlnum hrnum ha hb
    obtain ⟨st₁, hst₁, hfa⟩ := hl.realizes P st a hlnum ha
    -- The code of the left value leaves the right operand as it is, and that of the right value
    -- leaves the left value.
    rw [← Operand.eval_frame hrhs hl.emits.computes hst₁] at hb
    obtain ⟨st₂, hst₂, hgb⟩ := hr.realizes P st₁ b hrnum hb
    refine ⟨st₂, (exec_append_of_eq_some hst₁ code').trans hst₂, ?_, hgb⟩
    rwa [Operand.eval_frame hl.live hr.emits.computes hst₂]

end Converts

theorem ConversionPair.bind {x y : LowerM Value} {σ : Lowering} {lhs rhs : Operand}
    {lty rty : Ir.Ty} {f g : Val → Val} {l r : Value} {code code' : List Instr} {β : Type}
    {k : Value → Value → LowerM β} {b : β} {code'' : List Instr} (hσ : σ.Open)
    (h : ConversionPair x y σ lhs rhs lty rty f g l r code code')
    (hk : Emits (k l r) (σ.compute (code ++ code')) b code'') :
    Emits (do k (← x) (← y)) σ b (code ++ code' ++ code'') := by
  rw [List.append_assoc]
  refine h.left.emits.bind hσ (h.right.emits.bind (hσ.compute code) ?_)
  rwa [Lowering.compute_compute]

namespace LowerM

variable {σ : Lowering} {v : Value}

theorem truth_converts (hσ : σ.Open) (hv : σ.Live (.value v)) :
    Converts (truth v) σ (.value v) .i1 fun a => .ofBool a.truth := by
  cases v with
  -- The truth of a constant is known, and only that of a register is computed.
  | int n =>
    refine .pure (.bool _) rfl (fun _ => .bool _) ?_
    rintro st a - ⟨⟩
    rfl
  | float x =>
    refine .pure (.bool _) rfl (fun _ => .bool _) ?_
    rintro st a ⟨⟩ ⟨⟩
    -- The pattern is looked at instead of a comparison, which is the same for numbers only.
    change some (Val.ofBool (!x.isZero)) = some (Val.ofBool (Val.float x).truth)
    rw [Val.truth_float ‹_›]
  | bool b =>
    refine .pure (.bool _) rfl (fun _ => .bool _) ?_
    rintro st a - ⟨⟩
    simp [Operand.eval, Value.eval, Datum.val]
  | reg r =>
    obtain ⟨name, ty⟩ := r
    cases ty with
    | i1 =>
      refine .pure hv rfl (fun _ => .reg _) ?_
      intro st a _ ha
      obtain ⟨b, hb, rfl⟩ := Value.eval_i1 ha rfl
      simp [Operand.eval, hb, Datum.val]
    | i32 =>
      refine .define hσ (icmp_open hσ .ne _ (.int 0)) rfl
        ⟨⟨rfl, rfl, rfl⟩, by simpa [Instr.operands] using ⟨hv, .int 0⟩, by simp [Instr.slot?]⟩
        (by simp [Instr.slot?]) ?_
      intro P st a ha
      obtain ⟨n, hn, rfl⟩ := Value.eval_i32 ha rfl
      exact ⟨.bool _, rfl, rfl, Instr.exec_icmp hn (b := .int 0) rfl _ .ne⟩
    | f32 =>
      have hzero : (Value.float .zero).Live σ.builder.instrs σ.builder.temporaries :=
        .float (.of_isNaN Binary.isNaN_zero)
      refine .define hσ (fcmp_open hσ .one _ (.float .zero)) rfl
        ⟨⟨rfl, rfl, rfl⟩, by simpa [Instr.operands] using ⟨hv, hzero⟩, by simp [Instr.slot?]⟩
        (by simp [Instr.slot?]) ?_
      intro P st a ha
      obtain ⟨x, hx, rfl⟩ := Value.eval_f32 ha rfl
      refine ⟨.bool _, rfl, ?_, Instr.exec_fcmp hx (b := .float .zero) rfl _ .one⟩
      -- The code compares with a float, and the source with the integer zero.
      have hzero : (Val.int 0).toFloat = .zero := Binary.ofInt_ofBool false
      rw [← hzero]
      rfl

theorem cast_converts (hσ : σ.Open) (hv : σ.Live (.value v)) (op : CastOp)
    (hty : v.ty = op.source) :
    Converts (liftM (cast op v op.target)) σ (.value v) op.target (Val.into op.target) := by
  refine .define hσ (cast_open hσ op v op.target) rfl
    ⟨⟨hty, rfl⟩, by simpa [Instr.operands] using! hv, by simp [Instr.slot?]⟩
    (by simp [Instr.slot?]) ?_
  intro P st a ha
  cases op with
  | sitofp =>
    obtain ⟨n, hn, rfl⟩ := Value.eval_i32 ha hty
    exact ⟨_, rfl, rfl, Instr.exec_cast hn _ .sitofp⟩
  | fptosi =>
    obtain ⟨x, hx, rfl⟩ := Value.eval_f32 ha hty
    exact ⟨_, rfl, rfl, Instr.exec_cast hx _ .fptosi⟩
  | zext =>
    obtain ⟨b, hb, rfl⟩ := Value.eval_i1 ha hty
    exact ⟨_, rfl, rfl, Instr.exec_cast hb _ .zext⟩
  | uitofp =>
    obtain ⟨b, hb, rfl⟩ := Value.eval_i1 ha hty
    exact ⟨.float _, rfl, (Val.into_f32_ofBool b).symm, Instr.exec_cast hb _ .uitofp⟩

theorem convert_converts (hσ : σ.Open) (hv : σ.Live (.value v)) (ty : Ir.Ty) :
    Converts (convert v ty) σ (.value v) ty (Val.into ty) := by
  unfold convert
  by_cases hty : v.ty = ty
  · rw [if_pos hty]
    subst hty
    exact .pure hv rfl id fun st a _ ha => by rw [Value.into_ty ha, ha]
  -- Constants are converted here and now, registers by a cast.
  · rw [if_neg hty]
    cases ty with
    | i1 => exact truth_converts hσ hv
    | i32 =>
      cases v with
      | int n => exact absurd rfl hty
      | float x =>
        refine .pure (.int _) rfl (fun _ => .int _) ?_
        rintro st a - ⟨⟩
        rfl
      | bool b =>
        refine .pure (.int _) rfl (fun _ => .int _) ?_
        rintro st a - ⟨⟩
        rfl
      | reg r =>
        obtain ⟨name, ty⟩ := r
        cases ty with
        | i1 => exact cast_converts hσ hv .zext rfl
        | i32 => exact absurd rfl hty
        | f32 => exact cast_converts hσ hv .fptosi rfl
    | f32 =>
      cases v with
      | int n =>
        refine .pure (.float (Binary.quiet_ofInt _)) rfl (fun _ => .float (Binary.isNaN_ofInt _)) ?_
        rintro st a - ⟨⟩
        rfl
      | float x => exact absurd rfl hty
      | bool b =>
        have hnum : (if b then .one else .zero : Binary32).isNaN = false := by
          rw [← Binary.ofInt_ofBool b]
          exact Binary.isNaN_ofInt _
        refine .pure (.float (.of_isNaN hnum)) rfl (fun _ => .float hnum) ?_
        rintro st a - ⟨⟩
        rw [Datum.val, Val.into_f32_ofBool]
        rfl
      | reg r =>
        obtain ⟨name, ty⟩ := r
        cases ty with
        | i1 => exact cast_converts hσ hv .uitofp rfl
        | i32 => exact cast_converts hσ hv .sitofp rfl
        | f32 => exact absurd rfl hty

/-- Promotion keeps what a value stands for, and leaves no truth value. -/
theorem promote_converts (hσ : σ.Open) (hv : σ.Live (.value v)) :
    Converts (promote v) σ (.value v) (if v.ty = .f32 then .f32 else .i32) id := by
  unfold promote
  cases hty : v.ty with
  | i1 =>
    refine (convert_converts hσ hv .i32).congr fun st a ha => ?_
    obtain ⟨b, -, rfl⟩ := Value.eval_i1 ha hty
    rfl
  | i32 => exact .pure hv hty id fun _ _ _ ha => ha
  | f32 => exact .pure hv hty id fun _ _ _ ha => ha

/-- A variable is loaded at the type of its slot. -/
theorem fetch_converts (hσ : σ.Open) {operand : Operand} (h : σ.Live operand) :
    Converts (fetch operand) σ operand operand.ty id := by
  cases operand with
  | value v => exact .pure h rfl id fun _ _ _ ha => ha
  | storage slot =>
    refine .define hσ (load_open hσ slot) rfl
      ⟨rfl, by simp [Instr.operands], by simpa [Instr.slot?] using! h⟩ (by simp [Instr.slot?]) ?_
    rintro P st a ⟨⟩
    exact ⟨st.read slot, Ty.ty_read _ _, rfl, rfl⟩

end LowerM

end TinyC
