import TinyC.Proofs.Lowering.Frame

/-!
# Lowering under observation

Lowering once more, with a journal. It holds the states in which the lowering of a declaration, an
assignment, an expression or a statement has started or ended, well or with an error. Observation
changes nothing: without the journal, an observed run is a run of lowering.

Main statement: no start and no end is missing from the journal, and what every single step of
lowering keeps holds of all states in it.
-/

namespace TinyC

open Ir LowerM BuildM

/-- A state of lowering with the states seen before, latest first. -/
structure Journal where
  state : Lowering
  seen : List Lowering

/-- Steps of lowering under observation. -/
abbrev JournalM := EStateM Error Journal

namespace Journal

/-- Write down the state. -/
def note (j : Journal) : Journal := { j with seen := j.state :: j.seen }

/-- What is left of a result without the journal. -/
def erase {α : Type} : EStateM.Result Error Journal α → EStateM.Result Error Lowering α
  | .ok a j => .ok a j.state
  | .error e j => .error e j.state

/-- The state and all states seen before. -/
def All (I : Lowering → Prop) (j : Journal) : Prop := I j.state ∧ ∀ σ ∈ j.seen, I σ

end Journal

namespace JournalM

/-- A step of lowering, of which nothing is written down. -/
def step {α : Type} (x : LowerM α) : JournalM α := fun j =>
  match x j.state with
  | .ok a state => .ok a { j with state }
  | .error e state => .error e { j with state }

/-- Write down the states at both ends, also if the step fails. -/
def noted {α : Type} (x : JournalM α) : JournalM α := fun j =>
  match x j.note with
  | .ok a j => .ok a j.note
  | .error e j => .error e j.note

end JournalM

instance : MonadLift LowerM JournalM := ⟨JournalM.step⟩

theorem JournalM.after_step {α : Type} (x : LowerM α) (j : Journal) :
    after (liftM x : JournalM α) j = { j with state := after x j.state } := by
  change after (JournalM.step x) j = _
  cases h : x j.state with
  | ok a σ => simp only [after, JournalM.step, h]
  | error e σ => simp only [after, JournalM.step, h]

theorem JournalM.after_noted {α : Type} (x : JournalM α) (j : Journal) :
    after (noted x) j = (after x j.note).note := by
  cases h : x j.note with
  | ok a j' => simp only [after, noted, h]
  | error e j' => simp only [after, noted, h]

open JournalM

/-! ## Observed lowering -/

namespace Expr

def observe : Expr → JournalM Unit
  | .binary op lhs rhs => noted do
    lhs.observe
    rhs.observe
    let (lhs, rhs) ← popPair
    push (.value (← op.lower lhs rhs))
  | e => noted e.lower

def observeTruth (e : Expr) : JournalM Value := do
  e.observe
  truth (← popValue)

def observeInto (e : Expr) (slot : Slot) : JournalM Unit := do
  e.observe
  let value ← convert (← popValue) slot.ty
  store value slot

end Expr

namespace Decl

def observe (d : Decl) : JournalM Unit := noted do
  let slot ← declare d.name d.ty
  if let some e := d.initial then e.observeInto slot

def observeAll : List Decl → JournalM Unit
  | [] => pure ()
  | d :: decls => do
    d.observe
    observeAll decls

end Decl

def Assign.observe (a : Assign) : JournalM Unit := noted do
  match (← (get : LowerM Lowering)).symbols.lookup? a.name with
  | some symbol => a.value.observeInto symbol.slot
  | none => throw (.semantic (.undeclaredTarget a.name))

def JournalM.loop (kind : String) (cond : Expr) (body : JournalM Unit) : JournalM Unit := do
  let headBlock ← appendBlock (kind ++ ".head")
  let bodyBlock ← appendBlock (kind ++ ".body")
  let exitBlock ← appendBlock (kind ++ ".exit")
  branch headBlock
  moveTo headBlock
  condBranch (← cond.observeTruth) bodyBlock exitBlock
  moveTo bodyBlock
  body
  fallInto headBlock
  moveTo exitBlock

namespace Stmt

mutual

def observe : Stmt → JournalM Unit
  | .decl d => noted d.observe
  | .assign a => noted a.observe
  | .ifThen cond body => noted do Ir.ifThen (← cond.observeTruth) (observeAll body)
  | .ifElse cond thenBody elseBody => noted do
    Ir.ifElse (← cond.observeTruth) (observeAll thenBody) (observeAll elseBody)
  | .while_ cond body => noted (JournalM.loop "while" cond (observeAll body))
  | .for_ init cond step body => noted do
    init.observe
    JournalM.loop "for" cond do
      observeAll body
      step.observe
  | .block body => noted (observeAll body)
  | .empty => noted (pure ())

def observeAll : List Stmt → JournalM Unit
  | [] => pure ()
  | s :: body => do
    s.observe
    observeAll body

end

end Stmt

def Program.observe (p : Program) : JournalM Unit := do
  moveTo (← appendBlock "entry")
  Decl.observeAll p.declarations
  Stmt.observeAll p.statements
  ret (some (.int 0))

/-! ## What steps keep -/

/-- The step keeps `I`, whether it succeeds or fails. -/
def Keeps (I : Lowering → Prop) {α : Type} (x : LowerM α) : Prop := ∀ σ, I σ → I (after x σ)

namespace Keeps

variable {I : Lowering → Prop} {α β : Type}

theorem pure (a : α) : Keeps I (Pure.pure a) := fun _ h => h

theorem get : Keeps I (get : LowerM Lowering) := fun _ h => h

theorem throw (e : Error) : Keeps I (throw e : LowerM α) := fun _ h => h

theorem bind {x : LowerM α} {f : α → LowerM β} (hx : Keeps I x) (hf : ∀ a, Keeps I (f a)) :
    Keeps I (x >>= f) := by
  intro σ hσ
  rcases after_bind x f σ with ⟨a, h⟩ | h
  · rw [h]
    exact hf a _ (hx σ hσ)
  · rw [h]
    exact hx σ hσ

end Keeps

theorem LowerM.after_lift {α : Type} (x : BuildM α) (σ : Lowering) :
    after (liftM x : LowerM α) σ = { σ with builder := after x σ.builder } := by
  cases h : x σ.builder with
  | ok a b => rw [after_ok (lift_ok h), after_ok h]
  | error e b => rw [after_error (lift_error h), after_error h]

theorem Ir.Calculates.operation {x : BuildM Value} (h : Calculates x) : Operation ∅ x := by
  cases h with
  | binary op lhs rhs => exact .binary op lhs rhs
  | icmp pred lhs rhs => exact .icmp pred lhs rhs
  | fcmp pred lhs rhs => exact .fcmp pred lhs rhs
  | cast op value ty => exact .cast op value ty

/-- What is kept by everything that lowering is made of. -/
structure Stable (I : Lowering → Prop) : Prop where
  /-- Operands come and go. -/
  stack {σ : Lowering} : I σ → ∀ stack, I { σ with stack }
  /-- An operation that makes neither a block nor a slot. -/
  call {α : Type} {x : BuildM α} : Operation ∅ x → Keeps I (liftM x : LowerM α)
  appendBlock (base : String) : Keeps I (liftM (BuildM.appendBlock base) : LowerM BlockId)
  declare (name : String) (ty : Ty) : Keeps I (LowerM.declare name ty)

namespace Stable

variable {I : Lowering → Prop}

theorem chains (h : Stable I) : Chains fun x => Keeps I x where
  pure := .pure
  bind := .bind
  calculate hx := h.call hx.operation
  load src := h.call (.load src)

theorem push (h : Stable I) (operand : Operand) : Keeps I (push operand) :=
  fun _ hσ => h.stack hσ _

theorem pop (h : Stable I) : Keeps I pop := by
  rintro ⟨builder, symbols, stack⟩ hσ
  cases stack with
  | nil => exact hσ
  | cons operand stack => exact h.stack hσ stack

theorem popValue (h : Stable I) : Keeps I popValue := .bind h.pop h.chains.fetch

theorem popPair (h : Stable I) : Keeps I popPair :=
  .bind h.pop fun rhs => .bind h.pop fun lhs =>
    .bind (h.chains.fetch lhs) fun _ => .bind (h.chains.fetch rhs) fun _ => .pure _

theorem fallInto (h : Stable I) (block : BlockId) :
    Keeps I (liftM (BuildM.fallInto block) : LowerM Unit) := by
  intro σ hσ
  rw [after_lift]
  rcases after_fallInto block σ.builder with hskip | hbranch
  · rw [hskip]
    exact hσ
  · rw [hbranch, ← after_lift]
    exact h.call (.branch block) σ hσ

end Stable

/-! ## Observation -/

/-- The observed step does what the step does, and sees only what `I` holds of. -/
structure Observes (I : Lowering → Prop) {α : Type} (y : JournalM α) (x : LowerM α) : Prop where
  erase_eq : ∀ j, Journal.erase (y j) = x j.state
  seen : ∀ j, j.seen ⊆ (after y j).seen
  all : ∀ j, j.All I → (after y j).All I

/-- The observed step does what the step does, and writes down the states at both ends. What has
been written down stays, so no start and no end of a part is lost. -/
structure Faithful {α : Type} (y : JournalM α) (x : LowerM α) : Prop where
  erase_eq : ∀ j, Journal.erase (y j) = x j.state
  seen : ∀ j, j.seen ⊆ (after y j).seen
  starts : ∀ j, j.state ∈ (after y j).seen
  ends : ∀ j, after x j.state ∈ (after y j).seen

/-- An observed piece of a program. -/
structure Records (I : Lowering → Prop) {α : Type} (y : JournalM α) (x : LowerM α) : Prop
    extends Observes I y x, Faithful y x

namespace Observes

variable {I : Lowering → Prop} {α β : Type}

theorem bind {y : JournalM α} {x : LowerM α} {g : α → JournalM β} {f : α → LowerM β}
    (hx : Observes I y x) (hf : ∀ a, Observes I (g a) (f a)) : Observes I (y >>= g) (x >>= f) where
  erase_eq j := by
    have h := hx.erase_eq j
    cases hy : y j with
    | ok a j' =>
      rw [hy] at h
      rw [bind_ok h.symm, ← (hf a).erase_eq j']
      simp only [Bind.bind, EStateM.bind, hy]
    | error e j' =>
      rw [hy] at h
      rw [bind_error h.symm]
      simp only [Bind.bind, EStateM.bind, hy, Journal.erase]
  seen j := by
    rcases after_bind y g j with ⟨a, h⟩ | h
    · rw [h]
      exact List.Subset.trans (hx.seen j) ((hf a).seen _)
    · rw [h]
      exact hx.seen j
  all j hj := by
    rcases after_bind y g j with ⟨a, h⟩ | h
    · rw [h]
      exact (hf a).all _ (hx.all j hj)
    · rw [h]
      exact hx.all j hj

theorem step {x : LowerM α} (hx : Keeps I x) : Observes I (liftM x : JournalM α) x where
  erase_eq j := by
    change Journal.erase (JournalM.step x j) = x j.state
    unfold JournalM.step
    cases x j.state <;> rfl
  seen j := by
    rw [after_step]
    exact List.Subset.refl _
  all j hj := by
    rw [after_step]
    exact ⟨hx j.state hj.1, hj.2⟩

theorem pure (a : α) : Observes I (Pure.pure a) (Pure.pure a) := step (.pure a)

theorem state_after {y : JournalM α} {x : LowerM α} (hx : Observes I y x) (j : Journal) :
    (after y j).state = after x j.state := by
  have h := hx.erase_eq j
  cases hy : y j with
  | ok a j' =>
    rw [hy] at h
    rw [after_ok hy, after_ok h.symm]
  | error e j' =>
    rw [hy] at h
    rw [after_error hy, after_error h.symm]

/-- What is seen to hold at the end of an observed step is kept by the step. -/
theorem keeps {y : JournalM α} {x : LowerM α} (hx : Observes I y x) : Keeps I x := by
  intro σ hσ
  have hall := hx.all ⟨σ, []⟩ ⟨hσ, List.forall_mem_nil _⟩
  rw [← hx.state_after ⟨σ, []⟩]
  exact hall.1

theorem noted {y : JournalM α} {x : LowerM α} (hx : Observes I y x) : Records I (noted y) x where
  erase_eq j := by
    refine Eq.trans ?_ (hx.erase_eq j.note)
    unfold JournalM.noted
    cases y j.note <;> rfl
  seen j := by
    rw [after_noted]
    have hseen : j.note.seen ⊆ (after y j.note).seen := hx.seen j.note
    exact fun σ hσ => List.mem_cons_of_mem _ (hseen (List.mem_cons_of_mem _ hσ))
  all j hj := by
    have hnote : ∀ j : Journal, j.All I → j.note.All I := fun j hj =>
      ⟨hj.1, List.forall_mem_cons.mpr hj⟩
    rw [after_noted]
    exact hnote _ (hx.all _ (hnote j hj))
  starts j := by
    rw [after_noted]
    exact List.mem_cons_of_mem _ (hx.seen j.note (List.mem_cons_self ..))
  ends j := by
    have hstate : (after y j.note).state = after x j.state := hx.state_after j.note
    rw [after_noted, ← hstate]
    exact List.mem_cons_self ..

section

variable (h : Stable I)

include h

theorem ifThen (cond : Value) {arm : JournalM Unit} {arm' : LowerM Unit}
    (harm : Observes I arm arm') : Observes I (Ir.ifThen cond arm) (Ir.ifThen cond arm') := by
  unfold Ir.ifThen
  refine bind (step (h.appendBlock _)) fun thenBlock => ?_
  refine bind (step (h.appendBlock _)) fun endBlock => ?_
  refine bind (step (h.call (.condBranch cond thenBlock endBlock))) fun _ => ?_
  refine bind (step (h.call (.moveTo thenBlock))) fun _ => ?_
  refine bind harm fun _ => ?_
  exact bind (step (h.fallInto endBlock)) fun _ => step (h.call (.moveTo endBlock))

theorem ifElse (cond : Value) {thenArm elseArm : JournalM Unit} {thenArm' elseArm' : LowerM Unit}
    (hthen : Observes I thenArm thenArm') (helse : Observes I elseArm elseArm') :
    Observes I (Ir.ifElse cond thenArm elseArm) (Ir.ifElse cond thenArm' elseArm') := by
  unfold Ir.ifElse
  refine bind (step (h.appendBlock _)) fun thenBlock => ?_
  refine bind (step (h.appendBlock _)) fun elseBlock => ?_
  refine bind (step (h.appendBlock _)) fun endBlock => ?_
  refine bind (step (h.call (.condBranch cond thenBlock elseBlock))) fun _ => ?_
  refine bind (step (h.call (.moveTo thenBlock))) fun _ => ?_
  refine bind hthen fun _ => ?_
  refine bind (step (h.fallInto endBlock)) fun _ => ?_
  refine bind (step (h.call (.moveTo elseBlock))) fun _ => ?_
  refine bind helse fun _ => ?_
  exact bind (step (h.fallInto endBlock)) fun _ => step (h.call (.moveTo endBlock))

end

end Observes

/-! ## Programs -/

section

variable {I : Lowering → Prop}

theorem Expr.observe_records (h : Stable I) (e : Expr) : Records I e.observe e.lower := by
  induction e with
  | int n => exact Observes.noted (.step (h.push _))
  | float x => exact Observes.noted (.step (h.push _))
  | var name =>
    refine Observes.noted (.step (.bind .get fun σ => ?_))
    cases σ.symbols.lookup? name with
    | none => exact .throw _
    | some symbol => exact h.push _
  | binary op lhs rhs ihl ihr =>
    refine Observes.noted (.bind ihl.toObserves fun _ => .bind ihr.toObserves fun _ =>
      .bind (.step h.popPair) ?_)
    rintro ⟨l, r⟩
    exact .bind (.step (h.chains.operator op l r)) fun v => .step (h.push (.value v))

theorem Expr.observeTruth_observes (h : Stable I) (e : Expr) :
    Observes I e.observeTruth e.lowerTruth :=
  .bind (e.observe_records h).toObserves fun _ =>
    .bind (.step h.popValue) fun v => .step (h.chains.truth v)

theorem Expr.observeInto_observes (h : Stable I) (e : Expr) (slot : Slot) :
    Observes I (e.observeInto slot) (e.lowerInto slot) :=
  .bind (e.observe_records h).toObserves fun _ => .bind (.step h.popValue) fun v =>
    .bind (.step (h.chains.convert v slot.ty)) fun w => .step (h.call (.store w slot))

theorem Decl.observe_records (h : Stable I) (d : Decl) : Records I d.observe d.lower := by
  refine Observes.noted (.bind (.step (h.declare d.name d.ty)) fun slot => ?_)
  cases d.initial with
  | none => exact .pure ()
  | some e => exact e.observeInto_observes h slot

theorem Decl.observeAll_observes (h : Stable I) (decls : List Decl) :
    Observes I (observeAll decls) (lowerAll decls) := by
  induction decls with
  | nil => exact .pure ()
  | cons d decls ih => exact .bind (d.observe_records h).toObserves fun _ => ih

theorem Assign.observe_records (h : Stable I) (a : Assign) : Records I a.observe a.lower := by
  refine Observes.noted (.bind (.step .get) fun σ => ?_)
  cases σ.symbols.lookup? a.name with
  | none => exact .step (.throw _)
  | some symbol => exact a.value.observeInto_observes h symbol.slot

theorem JournalM.loop_observes (h : Stable I) (kind : String) (cond : Expr) {body : JournalM Unit}
    {body' : LowerM Unit} (hbody : Observes I body body') :
    Observes I (JournalM.loop kind cond body) (LowerM.loop kind cond body') := by
  unfold JournalM.loop LowerM.loop
  refine .bind (.step (h.appendBlock _)) fun headBlock => ?_
  refine .bind (.step (h.appendBlock _)) fun bodyBlock => ?_
  refine .bind (.step (h.appendBlock _)) fun exitBlock => ?_
  refine .bind (.step (h.call (.branch headBlock))) fun _ => ?_
  refine .bind (.step (h.call (.moveTo headBlock))) fun _ => ?_
  refine .bind (cond.observeTruth_observes h) fun v => ?_
  refine .bind (.step (h.call (.condBranch v bodyBlock exitBlock))) fun _ => ?_
  refine .bind (.step (h.call (.moveTo bodyBlock))) fun _ => ?_
  refine .bind hbody fun _ => ?_
  exact .bind (.step (h.fallInto headBlock)) fun _ => .step (h.call (.moveTo exitBlock))

namespace Stmt

mutual

theorem observe_records (h : Stable I) : ∀ s : Stmt, Records I s.observe s.lower
  | .decl d => by
    simp only [observe, lower]
    exact Observes.noted (d.observe_records h).toObserves
  | .assign a => by
    simp only [observe, lower]
    exact Observes.noted (a.observe_records h).toObserves
  | .ifThen cond body => by
    simp only [observe, lower]
    exact Observes.noted (.bind (cond.observeTruth_observes h) fun v =>
      Observes.ifThen h v (observeAll_observes h body))
  | .ifElse cond thenBody elseBody => by
    simp only [observe, lower]
    exact Observes.noted (.bind (cond.observeTruth_observes h) fun v =>
      Observes.ifElse h v (observeAll_observes h thenBody) (observeAll_observes h elseBody))
  | .while_ cond body => by
    simp only [observe, lower]
    exact Observes.noted (loop_observes h "while" cond (observeAll_observes h body))
  | .for_ init cond step body => by
    simp only [observe, lower]
    exact Observes.noted (.bind (init.observe_records h).toObserves fun _ =>
      loop_observes h "for" cond (.bind (observeAll_observes h body) fun _ =>
        (step.observe_records h).toObserves))
  | .block body => by
    simp only [observe, lower]
    exact Observes.noted (observeAll_observes h body)
  | .empty => by
    simp only [observe, lower]
    exact Observes.noted (.pure ())

theorem observeAll_observes (h : Stable I) :
    ∀ body : List Stmt, Observes I (observeAll body) (lowerAll body)
  | [] => by
    simp only [observeAll, lowerAll]
    exact .pure ()
  | s :: body => by
    simp only [observeAll, lowerAll]
    exact .bind (observe_records h s).toObserves fun _ => observeAll_observes h body

end

end Stmt

theorem Program.observe_observes (h : Stable I) (p : Program) : Observes I p.observe p.lower := by
  refine .bind (.step (h.appendBlock "entry")) fun block => ?_
  refine .bind (.step (h.call (.moveTo block))) fun _ => ?_
  refine .bind (Decl.observeAll_observes h p.declarations) fun _ => ?_
  refine .bind (Stmt.observeAll_observes h p.statements) fun _ => ?_
  exact .step (h.call (.ret _))

end

end TinyC
