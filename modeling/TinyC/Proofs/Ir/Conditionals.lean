import TinyC.Proofs.Ir.Calls

/-!
# Conditionals that succeed

A conditional opens blocks for its arms and for what comes behind it, and has each arm fall into the
latter. `openIfThen` and `openIfElse` are its part in front of the first arm. Main statements: where
commands succeed, a conditional among them is made of its opening, of arms whose commands succeed in
turn, and of falls into the block behind.
-/

namespace TinyC.Ir

/-! ## Conditionals up to their first arm -/

namespace BuildM

/-- The part of a conditional with one arm that comes in front of the arm. The result is the block
behind the conditional. -/
def openIfThen (cond : Value) : BuildM BlockId := do
  let thenBlock ← appendBlock "if.then"
  let endBlock ← appendBlock "if.end"
  condBranch cond thenBlock endBlock
  moveTo thenBlock
  return endBlock

/-- The part of a conditional with two arms that comes in front of the first arm. The result is the
block of the second arm and the block behind the conditional. -/
def openIfElse (cond : Value) : BuildM (BlockId × BlockId) := do
  let thenBlock ← appendBlock "if.then"
  let elseBlock ← appendBlock "if.else"
  let endBlock ← appendBlock "if.end"
  condBranch cond thenBlock elseBlock
  moveTo thenBlock
  return (elseBlock, endBlock)

end BuildM

namespace RecordM

variable {α β : Type} {r r' : Recording}

theorem lift_bind (x : BuildM α) (f : α → BuildM β) :
    (liftM (x >>= f) : RecordM β) = liftM x >>= fun a => liftM (f a) := by
  funext r
  change build (x >>= f) r = (build x >>= fun a => build (f a)) r
  simp only [build, bind, EStateM.bind]
  cases x r.builder <;> rfl

theorem lift_eq_ok {x : BuildM α} {a : α} (h : (liftM x : RecordM α) r = .ok a r') :
    ∃ b, x r.builder = .ok a b ∧ r' = { r with builder := b } := by
  change build x r = .ok a r' at h
  unfold build at h
  cases hx : x r.builder with
  | ok a' b =>
    rw [hx] at h
    cases h
    exact ⟨b, rfl, rfl⟩
  | error e b =>
    rw [hx] at h
    cases h

theorem ifThen_eq (cond : Value) (arm : RecordM Unit) :
    ifThen cond arm = (do
      let endBlock ← BuildM.openIfThen cond
      arm
      BuildM.fallInto endBlock
      BuildM.moveTo endBlock) := by
  simp only [BuildM.openIfThen, lift_bind, bind_assoc]
  rfl

theorem ifElse_eq (cond : Value) (thenArm elseArm : RecordM Unit) :
    ifElse cond thenArm elseArm = (do
      let blocks ← BuildM.openIfElse cond
      thenArm
      BuildM.fallInto blocks.2
      BuildM.moveTo blocks.1
      elseArm
      BuildM.fallInto blocks.2
      BuildM.moveTo blocks.2) := by
  simp only [BuildM.openIfElse, lift_bind, bind_assoc]
  rfl

end RecordM

/-! ## Commands that succeed -/

/-- The builder behind commands. -/
def Builder.runAll (b : Builder) (commands : List Command) : Builder :=
  commands.foldl (fun b command => (command.run b).2) b

/-- No command fails. The failure of a command in an arm is one of the conditional. -/
def Succeeds (commands : List Command) (b : Builder) : Prop :=
  ∀ step ∈ runScript commands b, step.1.error? = none

instance (commands : List Command) (b : Builder) : Decidable (Succeeds commands b) :=
  inferInstanceAs (Decidable (∀ step ∈ runScript commands b, step.1.error? = none))

theorem succeeds_nil (b : Builder) : Succeeds [] b := List.forall_mem_nil _

theorem succeeds_cons {command : Command} {commands : List Command} {b : Builder} :
    Succeeds (command :: commands) b ↔
      (command.run b).1.error? = none ∧ Succeeds commands (command.run b).2 := by
  simp [Succeeds, runScript]

theorem attempt_eq_ok {α : Type} {x : BuildM α} {outcome : α → Outcome} {b : Builder}
    (h : (attempt (x >>= fun a => pure (outcome a)) b).1.error? = none) :
    ∃ a, x b = .ok a (attempt (x >>= fun a => pure (outcome a)) b).2 := by
  cases hx : x b with
  | ok a b' =>
    refine ⟨a, ?_⟩
    simp only [attempt, bind, EStateM.bind, hx, pure, EStateM.pure]
  | error e b' =>
    simp only [attempt, bind, EStateM.bind, hx] at h
    cases h

namespace RecordM

variable {r r' : Recording}

theorem note_eq_ok {arm : Nat} {outcome : Outcome} {a : Unit}
    (h : note arm outcome r = .ok a r') : outcome.error? = none ∧ r'.builder = r.builder := by
  constructor
  · cases herror : outcome.error? with
    | none => rfl
    | some e =>
      simp only [note, bind, EStateM.bind, herror] at h
      cases h
  · rw [← after_ok h, builder_note]

theorem runArm_eq_ok {arm : Nat} {commands : List Command} {a : Unit}
    (h : runArm arm commands r = .ok a r') :
    Succeeds commands r.builder ∧ r'.builder = r.builder.runAll commands := by
  induction commands generalizing r with
  | nil =>
    cases h
    exact ⟨succeeds_nil _, rfl⟩
  | cons command commands ih =>
    rw [runArm] at h
    obtain ⟨outcome, r₁, hrun, h⟩ := exists_of_bind_eq_ok h
    cases hrun
    obtain ⟨_, r₂, hnote, h⟩ := exists_of_bind_eq_ok h
    obtain ⟨herror, hbuilder⟩ := note_eq_ok hnote
    have hrest := ih h
    rw [hbuilder] at hrest
    exact ⟨succeeds_cons.mpr ⟨herror, hrest.1⟩, hrest.2⟩

theorem outcome_eq_ok {arms : Nat} {x : RecordM Unit} {b : Builder}
    (h : (outcome arms x b).1.error? = none) :
    ∃ r, x ⟨b, List.replicate arms []⟩ = .ok () r ∧ (outcome arms x b).2 = r.builder := by
  cases hx : x ⟨b, List.replicate arms []⟩ with
  | ok a r => exact ⟨r, rfl, by simp only [outcome, hx]⟩
  | error e r =>
    simp only [outcome, hx] at h
    cases h

end RecordM

section

variable {cond : Value} {arm thenArm elseArm : List Command} {b : Builder}

/-- A conditional with one arm that succeeds, step by step. -/
theorem Command.ifThen_eq_ok (h : ((Command.ifThen cond arm).run b).1.error? = none) :
    ∃ endBlock b₁ b₂, BuildM.openIfThen cond b = .ok endBlock b₁ ∧ Succeeds arm b₁ ∧
      BuildM.fallInto endBlock (b₁.runAll arm) = .ok () b₂ ∧
      ((Command.ifThen cond arm).run b).2 = b₂.moveTo endBlock.index := by
  rw [Command.run] at h ⊢
  obtain ⟨r, hr, hbuilder⟩ := RecordM.outcome_eq_ok h
  rw [hbuilder]
  rw [RecordM.ifThen_eq] at hr
  obtain ⟨endBlock, _, hopen, hr⟩ := exists_of_bind_eq_ok hr
  obtain ⟨b₁, hb₁, rfl⟩ := RecordM.lift_eq_ok hopen
  obtain ⟨_, r₁, harm, hr⟩ := exists_of_bind_eq_ok hr
  obtain ⟨hsucceeds, hrunAll⟩ := RecordM.runArm_eq_ok harm
  obtain ⟨_, _, hfall, hr⟩ := exists_of_bind_eq_ok hr
  obtain ⟨b₂, hb₂, rfl⟩ := RecordM.lift_eq_ok hfall
  cases hr
  rw [hrunAll] at hb₂
  exact ⟨endBlock, b₁, b₂, hb₁, hsucceeds, hb₂, rfl⟩

/-- A conditional with two arms that succeeds, step by step. -/
theorem Command.ifElse_eq_ok (h : ((Command.ifElse cond thenArm elseArm).run b).1.error? = none) :
    ∃ elseBlock endBlock b₁ b₂ b₃, BuildM.openIfElse cond b = .ok (elseBlock, endBlock) b₁ ∧
      Succeeds thenArm b₁ ∧
      BuildM.fallInto endBlock (b₁.runAll thenArm) = .ok () b₂ ∧
      Succeeds elseArm (b₂.moveTo elseBlock.index) ∧
      BuildM.fallInto endBlock ((b₂.moveTo elseBlock.index).runAll elseArm) = .ok () b₃ ∧
      ((Command.ifElse cond thenArm elseArm).run b).2 = b₃.moveTo endBlock.index := by
  rw [Command.run] at h ⊢
  obtain ⟨r, hr, hbuilder⟩ := RecordM.outcome_eq_ok h
  rw [hbuilder]
  rw [RecordM.ifElse_eq] at hr
  obtain ⟨blocks, _, hopen, hr⟩ := exists_of_bind_eq_ok hr
  obtain ⟨b₁, hb₁, rfl⟩ := RecordM.lift_eq_ok hopen
  obtain ⟨_, r₁, hthen, hr⟩ := exists_of_bind_eq_ok hr
  obtain ⟨hsucceeds, hrunAll⟩ := RecordM.runArm_eq_ok hthen
  obtain ⟨_, _, hfall, hr⟩ := exists_of_bind_eq_ok hr
  obtain ⟨b₂, hb₂, rfl⟩ := RecordM.lift_eq_ok hfall
  obtain ⟨_, _, hmove, hr⟩ := exists_of_bind_eq_ok hr
  cases hmove
  obtain ⟨_, r₂, helse, hr⟩ := exists_of_bind_eq_ok hr
  obtain ⟨hsucceeds', hrunAll'⟩ := RecordM.runArm_eq_ok helse
  obtain ⟨_, _, hfall', hr⟩ := exists_of_bind_eq_ok hr
  obtain ⟨b₃, hb₃, rfl⟩ := RecordM.lift_eq_ok hfall'
  cases hr
  rw [hrunAll] at hb₂
  rw [hrunAll'] at hb₃
  exact ⟨blocks.1, blocks.2, b₁, b₂, b₃, hb₁, hsucceeds, hb₂, hsucceeds', hb₃, rfl⟩

end

end TinyC.Ir
