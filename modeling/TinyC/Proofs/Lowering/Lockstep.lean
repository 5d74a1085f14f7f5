import TinyC.Proofs.Ir.Alike
import TinyC.Proofs.Ir.Numbering
import TinyC.Proofs.Lowering.Flattening
import TinyC.Proofs.Lowering.Frame
import TinyC.Proofs.Lowering.Program
import TinyC.Proofs.Program.Renaming

/-!
# Two runs in lockstep

Programs of the same shape are lowered by the same steps, and what differs are names: those of
variables and slots, and those of blocks. A `Translation` says how the names of two runs go
together. Blocks and slots are named from one table, so related states must agree on the numbers
that the table has given out. A variable without a point never takes a number from a label, nor the
other way round.

Main statement: steps that are paired lead from related states to related states, and the steps of
lowering are paired one by one. Nothing is said about runs that fail, which are a matter of the
names alone.
-/

namespace TinyC

open Ir LowerM BuildM

/-! ## Steps that succeed -/

namespace LowerM

variable {α : Type} {σ ρ : Lowering}

theorem lift_eq_ok {x : BuildM α} {a : α} (h : (liftM x : LowerM α) σ = .ok a ρ) :
    ∃ b, x σ.builder = .ok a b ∧ ρ = { σ with builder := b } := by
  cases hx : x σ.builder with
  | ok a' b =>
    rw [lift_ok hx] at h
    cases h
    exact ⟨b, rfl, rfl⟩
  | error e b =>
    rw [lift_error hx] at h
    cases h


end LowerM

/-! ## Translations -/

/-- The number a name has before there are variables. Only the first block is named by then. -/
def Ir.taken (x : String) : Option Nat := if x = "entry" then some 0 else none

/-- The name of the slot of a variable. -/
def Ir.slotName (x : String) : String := nextName x (taken x)

/-- There is a point in the name, but no number at its end. -/
structure Ir.IsLabel (base : String) : Prop where
  dotted : ¬Undotted base
  unnumbered : Unnumbered base

theorem Ir.IsLabel.of_getLast? {base : String} (hdot : ¬Undotted base)
    (hlast : base.toList.getLast?.any (fun c => !c.isDigit) = true) : IsLabel base := by
  refine ⟨hdot, ?_⟩
  cases hc : base.toList.getLast? with
  | none => simp [hc] at hlast
  | some c => exact unnumbered_of_getLast? hc (by simpa [hc] using hlast)

/-- The labels of a loop are made from its kind and from the parts it has. -/
def Ir.loopKinds : List String := ["for", "while"]

@[inherit_doc loopKinds]
def Ir.loopParts : List String := [".head", ".body", ".exit"]

theorem Ir.IsLabel.loop {kind part : String} (hkind : kind ∈ loopKinds)
    (hpart : part ∈ loopParts) : IsLabel (kind ++ part) := by
  have hall : ∀ kind ∈ loopKinds, ∀ part ∈ loopParts, ¬Undotted (kind ++ part) ∧
      (kind ++ part).toList.getLast?.any (fun c => !c.isDigit) = true := by
    decide +kernel
  obtain ⟨hdot, hlast⟩ := hall kind hkind part hpart
  exact .of_getLast? hdot hlast

/-- How the names of one run are those of another one. -/
structure Translation where
  /-- The variables of the first run. -/
  scope : Set String
  name : String → String
  slot : String → String
  label : String → String → Prop
  /-- The bases that are numbered alike. -/
  counted : Set String
  undotted : ∀ x ∈ scope, Undotted x ∧ Undotted (name x)
  injective : Set.InjOn name scope
  slot_eq : ∀ x ∈ scope, slot (slotName x) = slotName (name x)
  label_refl : ∀ l, label l l
  arms : armNames ⊆ counted

def Operand.rename (r : String → String) : Operand → Operand
  | .value v => .value v
  | .storage slot => .storage (slot.rename r)

def Symbol.rename (r : String → String) (s : Symbol) : Symbol := ⟨s.slot.rename r, s.ty⟩

namespace Translation

variable {τ : Translation} {α β : Type}

/-! ## Names in step -/

/-- The tables of two runs, with some variables not yet declared. -/
structure Names (τ : Translation) (unused : Set String) (t t' : NameTable) : Prop where
  tidy : t.Tidy
  tidy' : t'.Tidy
  counted : ∀ base ∈ τ.counted, IsLabel base → t'.last? base = t.last? base
  unused : ∀ x ∈ τ.scope, x ∈ unused →
    t.last? x = taken x ∧ t'.last? (τ.name x) = taken (τ.name x)

/-- The bases may be asked for at the same time. -/
structure Asks (τ : Translation) (base base' : String) : Prop where
  isLabel : IsLabel base
  isLabel' : IsLabel base'
  related : base' = base ∧ base ∈ τ.counted ∨
    base ∉ τ.counted ∧ base' ∉ τ.counted ∧ ∀ n n', τ.label (nextName base n) (nextName base' n')

theorem Asks.same {base : String} (h : IsLabel base) (hbase : base ∈ τ.counted) :
    τ.Asks base base :=
  ⟨h, h, .inl ⟨rfl, hbase⟩⟩

namespace Names

variable {unused : Set String} {t t' : NameTable}

theorem label (h : τ.Names unused t t') {base base' : String} (hbase : τ.Asks base base') :
    τ.label (t.fresh base).1 (t'.fresh base').1 := by
  rw [h.tidy.fresh_eq, h.tidy'.fresh_eq]
  rcases hbase.related with ⟨rfl, hcounted⟩ | ⟨-, -, hlabel⟩
  · rw [h.counted _ hcounted hbase.isLabel]
    exact τ.label_refl _
  · exact hlabel _ _

theorem fresh_label (h : τ.Names unused t t') {base base' : String} (hbase : τ.Asks base base') :
    τ.Names unused (t.fresh base).2 (t'.fresh base').2 where
  tidy := h.tidy.fresh hbase.isLabel.unnumbered
  tidy' := h.tidy'.fresh hbase.isLabel'.unnumbered
  counted c hc hlabel := by
    rw [h.tidy.last?_fresh base hlabel.unnumbered, h.tidy'.last?_fresh base' hlabel.unnumbered,
      h.counted c hc hlabel]
    -- A base that is counted is asked for in both runs or in none.
    rcases hbase.related with ⟨rfl, hcounted⟩ | ⟨hbase, hbase', -⟩
    · rw [h.counted _ hcounted hbase.isLabel]
    · rw [if_neg (ne_of_mem_of_not_mem hc hbase), if_neg (ne_of_mem_of_not_mem hc hbase')]
  unused x hx hunused := by
    -- There is a point in a label and none in a variable.
    obtain ⟨hdot, hdot'⟩ := τ.undotted x hx
    have hne : x ≠ base := fun heq => hbase.isLabel.dotted (heq ▸ hdot)
    have hne' : τ.name x ≠ base' := fun heq => hbase.isLabel'.dotted (heq ▸ hdot')
    rw [h.tidy.last?_fresh base hdot.unnumbered, h.tidy'.last?_fresh base' hdot'.unnumbered,
      if_neg hne, if_neg hne']
    exact h.unused x hx hunused

theorem slot (h : τ.Names unused t t') {x : String} (hx : x ∈ τ.scope) (hunused : x ∈ unused) :
    (t'.fresh (τ.name x)).1 = τ.slot (t.fresh x).1 := by
  obtain ⟨hlast, hlast'⟩ := h.unused x hx hunused
  rw [h.tidy.fresh_eq, h.tidy'.fresh_eq, hlast, hlast']
  exact (τ.slot_eq x hx).symm

theorem fresh_slot (h : τ.Names unused t t') {x : String} (hx : x ∈ τ.scope) :
    τ.Names (unused \ {x}) (t.fresh x).2 (t'.fresh (τ.name x)).2 where
  tidy := h.tidy.fresh (τ.undotted x hx).1.unnumbered
  tidy' := h.tidy'.fresh (τ.undotted x hx).2.unnumbered
  counted c hc hlabel := by
    obtain ⟨hdot, hdot'⟩ := τ.undotted x hx
    have hne : c ≠ x := fun heq => hlabel.dotted (heq ▸ hdot)
    have hne' : c ≠ τ.name x := fun heq => hlabel.dotted (heq ▸ hdot')
    rw [h.tidy.last?_fresh x hlabel.unnumbered, h.tidy'.last?_fresh (τ.name x) hlabel.unnumbered,
      if_neg hne, if_neg hne']
    exact h.counted c hc hlabel
  unused y hy hunused := by
    obtain ⟨hdot, hdot'⟩ := τ.undotted y hy
    have hne : y ≠ x := hunused.2
    have hne' : τ.name y ≠ τ.name x := fun heq => hne (τ.injective hy hx heq)
    rw [h.tidy.last?_fresh x hdot.unnumbered, h.tidy'.last?_fresh (τ.name x) hdot'.unnumbered,
      if_neg hne, if_neg hne']
    exact h.unused y hy hunused.1

theorem mono (h : τ.Names unused t t') {unused' : Set String} (hsubset : unused' ⊆ unused) :
    τ.Names unused' t t' :=
  ⟨h.tidy, h.tidy', h.counted, fun x hx hunused => h.unused x hx (hsubset hunused)⟩

end Names

/-! ## Related states -/

/-- The states differ in names only, as the translation says. -/
structure Relates (τ : Translation) (σ σ' : Lowering) : Prop where
  builder : σ.builder.Alike τ.label τ.slot σ'.builder
  names : τ.Names {x | σ.symbols.lookup? x = none} σ.builder.names σ'.builder.names
  symbols : ∀ x ∈ τ.scope,
    σ'.symbols.lookup? (τ.name x) = (σ.symbols.lookup? x).map (Symbol.rename τ.slot)
  stack : σ'.stack = σ.stack.map (Operand.rename τ.slot)

/-- Where both steps succeed, they lead from related states to related states, with results that go
together as `Q` says. -/
def Paired (τ : Translation) (Q : α → β → Prop) (x : LowerM α) (y : LowerM β) : Prop :=
  ∀ ⦃σ σ' ρ ρ' : Lowering⦄ ⦃a : α⦄ ⦃b : β⦄, τ.Relates σ σ' → x σ = .ok a ρ → y σ' = .ok b ρ' →
    τ.Relates ρ ρ' ∧ Q a b

namespace Paired

variable {γ δ : Type}

theorem pure {Q : α → β → Prop} {a : α} {b : β} (h : Q a b) :
    τ.Paired Q (Pure.pure a) (Pure.pure b) := by
  intro σ σ' ρ ρ' _ _ hσ hx hy
  cases hx
  cases hy
  exact ⟨hσ, h⟩

theorem bind {Q : α → β → Prop} {R : γ → δ → Prop} {x : LowerM α} {y : LowerM β}
    {f : α → LowerM γ} {g : β → LowerM δ} (hxy : τ.Paired Q x y)
    (hfg : ∀ a b, Q a b → τ.Paired R (f a) (g b)) : τ.Paired R (x >>= f) (y >>= g) := by
  intro σ σ' ρ ρ' c d hσ hx hy
  obtain ⟨a, σ₁, hx, hf⟩ := exists_of_bind_eq_ok hx
  obtain ⟨b, σ₁', hy, hg⟩ := exists_of_bind_eq_ok hy
  obtain ⟨hσ₁, hab⟩ := hxy hσ hx hy
  exact hfg a b hab hσ₁ hf hg

/-- The results of the first steps are equal. -/
theorem andThen {R : γ → δ → Prop} {x y : LowerM α} {f : α → LowerM γ} {g : α → LowerM δ}
    (hxy : τ.Paired Eq x y) (hfg : ∀ a, τ.Paired R (f a) (g a)) :
    τ.Paired R (x >>= f) (y >>= g) := by
  refine hxy.bind ?_
  rintro a _ rfl
  exact hfg a

/-- A step that fails is paired with every step. -/
theorem throw (Q : α → β → Prop) (e : Error) (y : LowerM β) :
    τ.Paired Q (throw e : LowerM α) y := by
  intro σ σ' ρ ρ' a b hσ hx hy
  cases hx

theorem get : τ.Paired τ.Relates (get : LowerM Lowering) (get : LowerM Lowering) := by
  intro σ σ' ρ ρ' a b hσ hx hy
  cases hx
  cases hy
  exact ⟨hσ, hσ⟩

/-! ### The builder -/

theorem lift {x y : BuildM α} (h : Mirrors τ.label τ.slot x y) :
    τ.Paired Eq (liftM x : LowerM α) (liftM y : LowerM α) := by
  intro σ σ' ρ ρ' a a' hσ hx hy
  obtain ⟨b, hb, rfl⟩ := lift_eq_ok hx
  obtain ⟨b', hb', rfl⟩ := lift_eq_ok hy
  obtain ⟨halike, hnames, hnames', rfl⟩ := h hσ.builder hb hb'
  refine ⟨⟨halike, ?_, hσ.symbols, hσ.stack⟩, rfl⟩
  rw [hnames, hnames']
  exact hσ.names

theorem appendBlock {base base' : String} (hbase : τ.Asks base base') :
    τ.Paired Eq (liftM (appendBlock base) : LowerM BlockId) (liftM (appendBlock base')) := by
  intro σ σ' ρ ρ' block block' hσ hx hy
  cases hx
  cases hy
  refine ⟨⟨?_, hσ.names.fresh_label hbase, hσ.symbols, hσ.stack⟩, ?_⟩
  · exact hσ.builder.addBlock (hσ.names.label hbase)
  · rw [hσ.builder.function.length_eq]

/-- Values are the same in both runs. -/
theorem calculations : Calculations fun x => τ.Paired Eq x x where
  pure a := pure rfl
  bind hx hf := hx.andThen hf
  calculate hx := by
    cases hx with
    | binary op lhs rhs => exact lift (.define lhs.ty fun _ => rfl)
    | icmp pred lhs rhs => exact lift (.define .i1 fun _ => rfl)
    | fcmp pred lhs rhs => exact lift (.define .i1 fun _ => rfl)
    | cast op value ty => exact lift (.define ty fun _ => rfl)

/-! ### Operands -/

theorem push (operand : Operand) :
    τ.Paired Eq (push operand) (push (operand.rename τ.slot)) := by
  intro σ σ' ρ ρ' _ _ hσ hx hy
  cases hx
  cases hy
  exact ⟨⟨hσ.builder, hσ.names, hσ.symbols, by simp [hσ.stack]⟩, rfl⟩

theorem pop : τ.Paired (fun operand operand' => operand' = operand.rename τ.slot) pop pop := by
  intro σ σ' ρ ρ' operand operand' hσ hx hy
  obtain ⟨builder, symbols, stack⟩ := σ
  obtain ⟨builder', symbols', stack'⟩ := σ'
  obtain rfl : stack' = stack.map (Operand.rename τ.slot) := hσ.stack
  cases stack with
  | nil => cases hx
  | cons top stack =>
    cases hx
    cases hy
    exact ⟨⟨hσ.builder, hσ.names, hσ.symbols, rfl⟩, rfl⟩

theorem fetch (operand : Operand) :
    τ.Paired Eq (fetch operand) (fetch (operand.rename τ.slot)) := by
  cases operand with
  | value v => exact pure rfl
  | storage slot => exact lift (.load slot)

theorem popValue : τ.Paired Eq popValue popValue := by
  refine pop.bind ?_
  rintro operand _ rfl
  exact fetch operand

theorem popPair : τ.Paired Eq popPair popPair := by
  refine pop.bind ?_
  rintro rhs _ rfl
  refine pop.bind ?_
  rintro lhs _ rfl
  exact (fetch lhs).andThen fun _ => (fetch rhs).andThen fun _ => pure rfl

/-! ### Conditionals and loops -/

theorem arm {base : String} (hbase : base ∈ armNames) :
    τ.Paired Eq (liftM (BuildM.appendBlock base) : LowerM BlockId)
      (liftM (BuildM.appendBlock base)) := by
  refine appendBlock (.same ?_ (τ.arms hbase))
  rcases hbase with rfl | rfl | rfl <;> exact .of_getLast? (by decide) (by decide)

theorem ifThen (cond : Value) {arm arm' : LowerM Unit} (harm : τ.Paired Eq arm arm') :
    τ.Paired Eq (Ir.ifThen cond arm) (Ir.ifThen cond arm') := by
  unfold Ir.ifThen
  refine (Paired.arm (by simp [armNames])).andThen fun thenBlock => ?_
  refine (Paired.arm (by simp [armNames])).andThen fun endBlock => ?_
  refine (lift (.condBranch cond thenBlock endBlock)).andThen fun _ => ?_
  refine (lift (.moveTo thenBlock)).andThen fun _ => harm.andThen fun _ => ?_
  exact (lift (.fallInto endBlock)).andThen fun _ => lift (.moveTo endBlock)

theorem ifElse (cond : Value) {thenArm thenArm' elseArm elseArm' : LowerM Unit}
    (hthen : τ.Paired Eq thenArm thenArm') (helse : τ.Paired Eq elseArm elseArm') :
    τ.Paired Eq (Ir.ifElse cond thenArm elseArm) (Ir.ifElse cond thenArm' elseArm') := by
  unfold Ir.ifElse
  refine (Paired.arm (by simp [armNames])).andThen fun thenBlock => ?_
  refine (Paired.arm (by simp [armNames])).andThen fun elseBlock => ?_
  refine (Paired.arm (by simp [armNames])).andThen fun endBlock => ?_
  refine (lift (.condBranch cond thenBlock elseBlock)).andThen fun _ => ?_
  refine (lift (.moveTo thenBlock)).andThen fun _ => hthen.andThen fun _ => ?_
  refine (lift (.fallInto endBlock)).andThen fun _ => ?_
  refine (lift (.moveTo elseBlock)).andThen fun _ => helse.andThen fun _ => ?_
  exact (lift (.fallInto endBlock)).andThen fun _ => lift (.moveTo endBlock)

theorem loop {kind kind' : String} {cond cond' : Expr} {body body' : LowerM Unit}
    (hkind : ∀ part ∈ loopParts, τ.Asks (kind ++ part) (kind' ++ part))
    (hcond : τ.Paired Eq cond.lowerTruth cond'.lowerTruth) (hbody : τ.Paired Eq body body') :
    τ.Paired Eq (loop kind cond body) (loop kind' cond' body') := by
  unfold LowerM.loop
  refine (appendBlock (hkind ".head" (by simp [loopParts]))).andThen fun headBlock => ?_
  refine (appendBlock (hkind ".body" (by simp [loopParts]))).andThen fun bodyBlock => ?_
  refine (appendBlock (hkind ".exit" (by simp [loopParts]))).andThen fun exitBlock => ?_
  refine (lift (.branch headBlock)).andThen fun _ => ?_
  refine (lift (.moveTo headBlock)).andThen fun _ => hcond.andThen fun v => ?_
  refine (lift (.condBranch v bodyBlock exitBlock)).andThen fun _ => ?_
  refine (lift (.moveTo bodyBlock)).andThen fun _ => hbody.andThen fun _ => ?_
  exact (lift (.fallInto headBlock)).andThen fun _ => lift (.moveTo exitBlock)

end Paired

end Translation

/-! ## Expressions, declarations and assignments -/

section

variable {τ : Translation}

open Translation

theorem Expr.lower_paired {e : Expr} (h : ∀ m ∈ e.mentions, m.name ∈ τ.scope) :
    τ.Paired Eq e.lower (e.rename τ.name).lower := by
  induction e with
  | int n => exact .push (.value _)
  | float x => exact .push (.value _)
  | var name =>
    have hname : name ∈ τ.scope := h (.use name) (by simp [mentions])
    refine Paired.get.bind fun σ σ' hσ => ?_
    rw [hσ.symbols name hname]
    cases σ.symbols.lookup? name with
    | none => exact .throw _ _ _
    | some symbol => exact .push (.storage symbol.slot)
  | binary op lhs rhs ihl ihr =>
    rw [mentions, List.forall_mem_append] at h
    refine (ihl h.1).andThen fun _ => (ihr h.2).andThen fun _ => ?_
    refine Paired.popPair.andThen fun pair => ?_
    exact (Paired.calculations.operator op pair.1 pair.2).andThen fun v => .push (.value v)

theorem Expr.lowerTruth_paired {e : Expr} (h : ∀ m ∈ e.mentions, m.name ∈ τ.scope) :
    τ.Paired Eq e.lowerTruth (e.rename τ.name).lowerTruth :=
  (lower_paired h).andThen fun _ => Paired.popValue.andThen Paired.calculations.truth

theorem Expr.lowerInto_paired {e : Expr} (h : ∀ m ∈ e.mentions, m.name ∈ τ.scope) (slot : Slot) :
    τ.Paired Eq (e.lowerInto slot) ((e.rename τ.name).lowerInto (slot.rename τ.slot)) := by
  refine (lower_paired h).andThen fun _ => Paired.popValue.andThen fun v => ?_
  exact (Paired.calculations.convert v slot.ty).andThen fun w => .lift (.store w slot)

/-- The slot of a variable is named after it in both runs. -/
theorem LowerM.declare_paired {name : String} (hname : name ∈ τ.scope) (ty : Ty) :
    τ.Paired (fun slot slot' => slot' = slot.rename τ.slot) (declare name ty)
      (declare (τ.name name) ty) := by
  intro σ σ' ρ ρ' slot slot' hσ hx hy
  obtain ⟨hunused, rfl, rfl⟩ := declare_eq_ok hx
  obtain ⟨-, rfl, rfl⟩ := declare_eq_ok hy
  have hname' := hσ.names.slot hname hunused
  have hslot := Builder.nextSlot_eq_rename hname' ty.slotTy
  refine ⟨⟨hσ.builder.allocate hname' _, ?_, ?_, hσ.stack⟩, hslot⟩
  · -- What is not declared afterwards was not declared before and is another variable.
    refine (hσ.names.fresh_slot hname).mono fun x hx => ?_
    have hx : (σ.symbols.insert name _).lookup? x = none := hx
    rw [SymbolTable.lookup?_insert] at hx
    split at hx
    next => cases hx
    next hne => exact ⟨hx, hne⟩
  · intro x hx
    simp only [Lowering.declare, SymbolTable.lookup?_insert, τ.injective.eq_iff hx hname]
    split
    next => rw [hslot]; rfl
    next => exact hσ.symbols x hx

theorem Decl.lower_paired {d : Decl} (h : ∀ m ∈ d.mentions, m.name ∈ τ.scope) :
    τ.Paired Eq d.lower (d.rename τ.name).lower := by
  obtain ⟨ty, name, initial⟩ := d
  obtain ⟨hname, hinitial⟩ := List.forall_mem_cons.mp h
  refine (declare_paired hname ty).bind ?_
  rintro slot _ rfl
  cases initial with
  | none => exact .pure rfl
  | some e => exact Expr.lowerInto_paired (by simpa using hinitial) slot

theorem Assign.lower_paired {a : Assign} (h : ∀ m ∈ a.mentions, m.name ∈ τ.scope) :
    τ.Paired Eq a.lower (a.rename τ.name).lower := by
  obtain ⟨hname, hvalue⟩ := List.forall_mem_cons.mp h
  have hname : a.name ∈ τ.scope := hname
  refine Paired.get.bind fun σ σ' hσ => ?_
  simp only [rename]
  rw [hσ.symbols a.name hname]
  cases σ.symbols.lookup? a.name with
  | none => exact .throw _ _ _
  | some symbol => exact Expr.lowerInto_paired hvalue symbol.slot

end

/-! ## Programs -/

/-- Nothing is named but the first block. -/
theorem Translation.relates_start (τ : Translation) (name : String) :
    τ.Relates (.start name) (.start name) where
  builder := by
    have hnew : (Builder.new name .i32).Alike τ.label τ.slot (.new name .i32) :=
      ⟨⟨rfl, rfl, .nil⟩, rfl, rfl⟩
    exact (hnew.addBlock (τ.label_refl _)).moveTo 0
  names := by
    have hentry : Undotted "entry" := by decide
    have hlast {x : String} (hx : Undotted x) :
        (NameTable.empty.fresh "entry").2.last? x = taken x :=
      NameTable.Tidy.empty.last?_fresh "entry" hx.unnumbered
    have htidy := NameTable.Tidy.empty.fresh hentry.unnumbered
    refine ⟨htidy, htidy, fun _ _ _ => rfl, fun x hx _ => ?_⟩
    exact ⟨hlast (τ.undotted x hx).1, hlast (τ.undotted x hx).2⟩
  symbols _ _ := rfl
  stack := rfl

namespace Program

variable {τ : Translation} {p p' : Program}

theorem lower_new (p : Program) : p.lower (.new p.name) =
    (do Stmt.lowerAll p.items; Ir.BuildM.ret (some (.int 0)) : LowerM Unit) (.start p.name) := by
  rw [lower_eq]
  rfl

theorem lower_relates (hname : p'.name = p.name)
    (h : τ.Paired Eq (Stmt.lowerAll p.items) (Stmt.lowerAll p'.items)) {ρ ρ' : Lowering}
    (hrun : p.lower (.new p.name) = .ok () ρ) (hrun' : p'.lower (.new p'.name) = .ok () ρ') :
    τ.Relates ρ ρ' := by
  rw [lower_new] at hrun hrun'
  rw [hname] at hrun'
  exact (h.andThen (fun _ => .lift (.ret _)) (τ.relates_start p.name) hrun hrun').1

/-- Programs whose statements are paired are lowered to functions that are alike. -/
theorem toModule_alike (hname : p'.name = p.name)
    (h : τ.Paired Eq (Stmt.lowerAll p.items) (Stmt.lowerAll p'.items)) {Γ Γ' : Scope}
    (hcheck : p.check = .ok Γ) (hcheck' : p'.check = .ok Γ') :
    ∃ f f', p.toModule = .ok ⟨p.name, [f]⟩ ∧ p'.toModule = .ok ⟨p.name, [f']⟩ ∧
      f.WellFormed ∧ f'.WellFormed ∧ f.Alike τ.label τ.slot f' := by
  rcases p.lower_cases with ⟨σ, -, hrun, hdone, hmodule, -⟩ | ⟨e, -, herror, -, -⟩
  · rcases p'.lower_cases with ⟨σ', -, hrun', hdone', hmodule', -⟩ | ⟨e, -, herror, -, -⟩
    · rw [hname] at hmodule'
      exact ⟨_, _, hmodule, hmodule', hdone.wellFormed, hdone'.wellFormed,
        (lower_relates hname h hrun hrun').builder.function⟩
    · rw [hcheck'] at herror
      cases herror
  · rw [hcheck] at herror
    cases herror

theorem toModule_ne_error {Γ : Scope} (h : p.check = .ok Γ) (e : Error) :
    p.toModule ≠ .error e := by
  obtain ⟨m, hm⟩ := exists_toModule h
  simp [hm]

theorem toModule_of_check_error {e : SemanticError} (h : p.check = .error e) :
    p.toModule = .error (.semantic e) := by
  rcases p.lower_cases with ⟨σ, hcheck, -⟩ | ⟨e', -, hcheck, -, hmodule⟩
  · rw [h] at hcheck
    cases hcheck
  · rw [h] at hcheck
    cases hcheck
    exact hmodule

end Program

end TinyC
