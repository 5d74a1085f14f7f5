import TinyC.Ir.Script
import TinyC.Proofs.Ir.Typing

/-!
# Calls of a builder

What a builder can become when its operations are called, in any order and with any arguments,
whether they succeed or fail. `Calls` is that relation in terms of the operations. `Reach` says it
in terms of what they do to the builder: a call makes at most one `Move`, and a conditional is made
of calls. So whatever every move keeps is kept by every sequence of calls.

Main statement: a builder only ever adds, and a sealed block stays as it is.
-/

namespace TinyC.Ir

/-- The state that code leaves behind, whether it succeeds or fails. -/
def after {ε σ α : Type} (x : EStateM ε σ α) (s : σ) : σ :=
  match x s with
  | .ok _ s => s
  | .error _ s => s

theorem after_ok {ε σ α : Type} {x : EStateM ε σ α} {s s' : σ} {a : α} (h : x s = .ok a s') :
    after x s = s' := by
  rw [after, h]

theorem after_error {ε σ α : Type} {x : EStateM ε σ α} {s s' : σ} {e : ε}
    (h : x s = .error e s') : after x s = s' := by
  rw [after, h]

theorem after_congr {ε σ α : Type} {x y : EStateM ε σ α} {s : σ} (h : x s = y s) :
    after x s = after y s := by
  rw [after, h, after]

/-- Code goes on from where its first part leaves off, unless that fails. -/
theorem after_bind {ε σ α β : Type} (x : EStateM ε σ α) (f : α → EStateM ε σ β) (s : σ) :
    (∃ a, after (x >>= f) s = after (f a) (after x s)) ∨ after (x >>= f) s = after x s := by
  cases h : x s with
  | ok a s' => exact .inl ⟨a, by simp only [after, bind, EStateM.bind, h]⟩
  | error e s' => exact .inr (by simp only [after, bind, EStateM.bind, h])

/-- Code that succeeds has succeeded in its first part. -/
theorem exists_of_bind_eq_ok {ε σ α β : Type} {x : EStateM ε σ α} {f : α → EStateM ε σ β}
    {s s' : σ} {b : β} (h : (x >>= f) s = .ok b s') :
    ∃ a s₁, x s = .ok a s₁ ∧ f a s₁ = .ok b s' := by
  cases hx : x s with
  | ok a s₁ =>
    simp only [bind, EStateM.bind, hx] at h
    exact ⟨a, s₁, rfl, h⟩
  | error e s₁ =>
    simp only [bind, EStateM.bind, hx] at h
    cases h

/-! ## Sequences of calls -/

/-- The operations of a builder that may change it. The blocks and slots they make are named after
`names`. -/
inductive Operation (names : Set String) : {α : Type} → BuildM α → Prop
  | appendBlock {base : String} : base ∈ names → Operation names (BuildM.appendBlock base)
  | moveTo (block : BlockId) : Operation names (BuildM.moveTo block)
  | alloca {base : String} (ty : Ty) : base ∈ names → Operation names (BuildM.alloca base ty)
  | load (src : Slot) : Operation names (BuildM.load src)
  | store (value : Value) (dest : Slot) : Operation names (BuildM.store value dest)
  | binary (op : Opcode) (lhs rhs : Value) : Operation names (BuildM.binary op lhs rhs)
  | icmp (pred : IntPredicate) (lhs rhs : Value) : Operation names (BuildM.icmp pred lhs rhs)
  | fcmp (pred : FloatPredicate) (lhs rhs : Value) : Operation names (BuildM.fcmp pred lhs rhs)
  | cast (op : CastOp) (value : Value) (ty : Ty) : Operation names (BuildM.cast op value ty)
  | branch (block : BlockId) : Operation names (BuildM.branch block)
  | condBranch (cond : Value) (thenBlock elseBlock : BlockId) :
    Operation names (BuildM.condBranch cond thenBlock elseBlock)
  | ret (value : Option Value) : Operation names (BuildM.ret value)

theorem Operation.mono {names names' : Set String} (h : names ⊆ names') {α : Type} {x : BuildM α}
    (hx : Operation names x) : Operation names' x := by
  cases hx with
  | appendBlock hbase => exact .appendBlock (h hbase)
  | moveTo block => exact .moveTo block
  | alloca ty hbase => exact .alloca ty (h hbase)
  | load src => exact .load src
  | store value dest => exact .store value dest
  | binary op lhs rhs => exact .binary op lhs rhs
  | icmp pred lhs rhs => exact .icmp pred lhs rhs
  | fcmp pred lhs rhs => exact .fcmp pred lhs rhs
  | cast op value ty => exact .cast op value ty
  | branch block => exact .branch block
  | condBranch cond thenBlock elseBlock => exact .condBranch cond thenBlock elseBlock
  | ret value => exact .ret value

/-- What a sequence of calls can make of a builder. The arms of a conditional are code of any kind
that makes calls in turn; it may pass over failures or fail by itself. -/
inductive Calls (names : Set String) : Builder → Builder → Prop
  | nil (b : Builder) : Calls names b b
  | cons {α : Type} {x : BuildM α} {b b' : Builder} : Operation names x →
    Calls names (after x b) b' → Calls names b b'
  | ifThen {arm : BuildM Unit} {b b' : Builder} (cond : Value) :
    (∀ b, Calls names b (after arm b)) →
    Calls names (after (ifThen cond arm) b) b' → Calls names b b'
  | ifElse {thenArm elseArm : BuildM Unit} {b b' : Builder} (cond : Value) :
    (∀ b, Calls names b (after thenArm b)) → (∀ b, Calls names b (after elseArm b)) →
    Calls names (after (ifElse cond thenArm elseArm) b) b' → Calls names b b'

/-! ## Refused operations -/

namespace Builder

theorem open_of_refusal? {b : Builder} (h : b.refusal? = none) : b.Open := by
  unfold refusal? currentBlock? at h
  cases hcurrent : b.current with
  | none => simp [hcurrent] at h
  | some block =>
    cases hblock : b.function.blocks[block.index]? with
    | none => simp [hcurrent, hblock] at h
    | some blk =>
      refine ⟨block.index, blk, ⟨hcurrent, hblock⟩, ?_⟩
      simpa [hcurrent, hblock] using h

/-- Use up a register. -/
def skipReg (b : Builder) : Builder := { b with temporaries := b.temporaries + 1 }

end Builder

namespace BuildM

variable {b : Builder} {e : Error}

theorem emit_refused (h : b.refusal? = some e) (instr : Instr) : emit instr b = .error e b := by
  simp only [emit_apply, h]

theorem terminate_refused (h : b.refusal? = some e) (t : Terminator) :
    terminate t b = .error e b := by
  simp only [terminate_apply, h]

/-- The register is taken before the block is looked at. -/
theorem define_refused (h : b.refusal? = some e) (ty : Ty) (instr : Reg → Instr) :
    (do
      let dest ← freshReg ty
      emit (instr dest)
      return Value.reg dest : BuildM Value) b = .error e b.skipReg := by
  have hskip : b.skipReg.refusal? = some e := h
  simp only [bind, EStateM.bind, freshReg_apply]
  rw [← Builder.skipReg, emit_refused hskip]

theorem alloca_refused (h : b.refusal? = some e) (base : String) (ty : Ty) :
    alloca base ty b = .error e b := by
  simp only [alloca, bind, EStateM.bind, checkOpen_apply, h]

/-! The targets of a branch are looked up before the current block is looked at. -/

theorem branch_known {block : BlockId} {name : String} (h : b.blockName? block = some name) :
    branch block b = terminate (.br name) b := by
  simp only [branch, bind, EStateM.bind, target_apply, h]

theorem branch_unknown {block : BlockId} (h : b.blockName? block = none) :
    branch block b = .error .noInsertionPoint b := by
  simp only [branch, bind, EStateM.bind, target_apply, h]

theorem condBranch_known (cond : Value) {thenBlock elseBlock : BlockId}
    {thenName elseName : String} (hthen : b.blockName? thenBlock = some thenName)
    (helse : b.blockName? elseBlock = some elseName) :
    condBranch cond thenBlock elseBlock b = terminate (.condBr cond thenName elseName) b := by
  simp only [condBranch, bind, EStateM.bind, target_apply, hthen, helse]

theorem condBranch_unknown (cond : Value) {thenBlock elseBlock : BlockId}
    (h : b.blockName? thenBlock = none ∨ b.blockName? elseBlock = none) :
    condBranch cond thenBlock elseBlock b = .error .noInsertionPoint b := by
  cases hthen : b.blockName? thenBlock with
  | none => simp only [condBranch, bind, EStateM.bind, target_apply, hthen]
  | some thenName =>
    have helse : b.blockName? elseBlock = none := by simpa [hthen] using h
    simp only [condBranch, bind, EStateM.bind, target_apply, hthen, helse]

end BuildM

/-! ## Moves -/

namespace Builder

/-- What a call does to a builder, if it does anything. -/
inductive Move (names : Set String) : Builder → Builder → Prop
  | addBlock (b : Builder) {base : String} : base ∈ names → Move names b (b.addBlock base)
  | moveTo (b : Builder) (j : Nat) : Move names b (b.moveTo j)
  | allocate {b : Builder} {base : String} (ty : Ty) : b.Open → base ∈ names →
    Move names b (b.allocate base ty)
  | store {b : Builder} (v : Value) (slot : Slot) : b.Open →
    Move names b (b.append [.store v slot])
  | compute {b : Builder} {i : Instr} {ty : Ty} : b.Open → i.dest? = some (b.nextReg ty) →
    Move names b (b.compute [i])
  | skipReg (b : Builder) : Move names b b.skipReg
  | close {b : Builder} {t : Terminator} : b.Open → t.targets ⊆ b.function.blockNames →
    Move names b (b.close t)

/-- Builders reached by moves. -/
abbrev Reach (names : Set String) : Builder → Builder → Prop := Relation.ReflTransGen (Move names)

theorem Reach.preserves {names : Set String} {I : Builder → Prop}
    (step : ∀ {b b'}, Move names b b' → I b → I b') {b b' : Builder} (h : Reach names b b')
    (hb : I b) : I b' := by
  induction h with
  | refl => exact hb
  | tail _ hmove ih => exact step hmove ih

theorem Reach.mono {names names' : Set String} (h : names ⊆ names') {b b' : Builder}
    (hreach : Reach names b b') : Reach names' b b' := by
  refine Relation.ReflTransGen.mono ?_ b b' hreach
  intro b b' hmove
  cases hmove with
  | addBlock hbase => exact .addBlock b (h hbase)
  | moveTo j => exact .moveTo b j
  | allocate ty hopen hbase => exact .allocate ty hopen (h hbase)
  | store v slot hopen => exact .store v slot hopen
  | compute hopen hdest => exact .compute hopen hdest
  | skipReg => exact .skipReg b
  | close hopen htargets => exact .close hopen htargets

theorem mem_blockNames_of_blockName? {b : Builder} {block : BlockId} {name : String}
    (h : b.blockName? block = some name) : name ∈ b.function.blockNames := by
  obtain ⟨blk, hblk, rfl⟩ := Option.map_eq_some_iff.mp h
  exact mem_blockNames hblk

end Builder

section

open Builder

variable {names : Set String} {b : Builder}

/-- A terminator that leads to known blocks seals the current block, or nothing happens. -/
theorem reach_terminate {t : Terminator} (h : t.targets ⊆ b.function.blockNames) :
    Reach names b (after (BuildM.terminate t) b) := by
  cases hrefusal : b.refusal? with
  | some e => rw [after_error (BuildM.terminate_refused hrefusal t)]
  | none =>
    have hopen := open_of_refusal? hrefusal
    rw [after_ok (BuildM.terminate_open hopen t)]
    exact .single (.close hopen h)

theorem reach_store (v : Value) (slot : Slot) :
    Reach names b (after (BuildM.store v slot) b) := by
  cases hrefusal : b.refusal? with
  | some e => rw [BuildM.store, after_error (BuildM.emit_refused hrefusal _)]
  | none =>
    have hopen := open_of_refusal? hrefusal
    rw [after_ok (BuildM.store_open hopen v slot)]
    exact .single (.store v slot hopen)

/-- An instruction with a result is emitted, or its register is used up. -/
theorem reach_define {x : BuildM Value} {ty : Ty} {instr : Reg → Instr}
    (hx : x = do
      let dest ← BuildM.freshReg ty
      BuildM.emit (instr dest)
      return Value.reg dest)
    (hdest : ∀ r, (instr r).dest? = some r) : Reach names b (after x b) := by
  subst hx
  cases hrefusal : b.refusal? with
  | some e =>
    rw [after_error (BuildM.define_refused hrefusal ty instr)]
    exact .single (.skipReg b)
  | none =>
    have hopen := open_of_refusal? hrefusal
    rw [after_ok (BuildM.define_open hopen ty instr)]
    exact .single (.compute hopen (hdest _))

theorem reach_alloca {base : String} (ty : Ty) (h : base ∈ names) :
    Reach names b (after (BuildM.alloca base ty) b) := by
  cases hrefusal : b.refusal? with
  | some e => rw [after_error (BuildM.alloca_refused hrefusal base ty)]
  | none =>
    have hopen := open_of_refusal? hrefusal
    rw [after_ok (BuildM.alloca_open hopen base ty)]
    exact .single (.allocate ty hopen h)

theorem reach_branch (block : BlockId) : Reach names b (after (BuildM.branch block) b) := by
  cases hname : b.blockName? block with
  | none => rw [after_error (BuildM.branch_unknown hname)]
  | some name =>
    rw [after_congr (BuildM.branch_known hname)]
    exact reach_terminate (by simpa [Terminator.targets] using mem_blockNames_of_blockName? hname)

theorem reach_condBranch (cond : Value) (thenBlock elseBlock : BlockId) :
    Reach names b (after (BuildM.condBranch cond thenBlock elseBlock) b) := by
  cases hthen : b.blockName? thenBlock with
  | none => rw [after_error (BuildM.condBranch_unknown cond (.inl hthen))]
  | some thenName =>
    cases helse : b.blockName? elseBlock with
    | none => rw [after_error (BuildM.condBranch_unknown cond (.inr helse))]
    | some elseName =>
      rw [after_congr (BuildM.condBranch_known cond hthen helse)]
      have hnames := And.intro (mem_blockNames_of_blockName? hthen)
        (mem_blockNames_of_blockName? helse)
      exact reach_terminate (by simpa [Terminator.targets] using hnames)

theorem Operation.reach {α : Type} {x : BuildM α} (h : Operation names x) (b : Builder) :
    Reach names b (after x b) := by
  cases h with
  | appendBlock hbase =>
    rw [after_ok (BuildM.appendBlock_apply _ b)]
    exact .single (.addBlock b hbase)
  | moveTo block =>
    rw [after_ok (BuildM.moveTo_apply block b)]
    exact .single (.moveTo b block.index)
  | alloca ty hbase => exact reach_alloca ty hbase
  | load src => exact reach_define rfl fun _ => rfl
  | store value dest => exact reach_store value dest
  | binary op lhs rhs => exact reach_define rfl fun _ => rfl
  | icmp pred lhs rhs => exact reach_define rfl fun _ => rfl
  | fcmp pred lhs rhs => exact reach_define rfl fun _ => rfl
  | cast op value ty => exact reach_define rfl fun _ => rfl
  | branch block => exact reach_branch block
  | condBranch cond thenBlock elseBlock => exact reach_condBranch cond thenBlock elseBlock
  | ret value => exact reach_terminate (List.nil_subset _)

end

/-! ## Conditionals -/

/-- The names that the blocks of conditionals are made from. -/
def armNames : Set String := {"if.then", "if.else", "if.end"}

/-- Falling into a block is a branch, or nothing. -/
theorem BuildM.fallInto_apply (block : BlockId) (b : Builder) :
    fallInto block b = if b.isSealed then .ok () b else branch block b := by
  have hsealed : BuildM.isSealed b = .ok b.isSealed b := rfl
  cases h : b.isSealed with
  | true =>
    simp only [fallInto, bind, EStateM.bind, hsealed, h]
    rfl
  | false => simp only [fallInto, bind, EStateM.bind, hsealed, h, Bool.false_eq_true, if_false]

theorem BuildM.after_fallInto (block : BlockId) (b : Builder) :
    after (fallInto block) b = b ∨ after (fallInto block) b = after (branch block) b := by
  cases h : b.isSealed with
  | true => exact .inl (after_ok (a := ()) (by simp [fallInto_apply, h]))
  | false => exact .inr (after_congr (by simp [fallInto_apply, h]))

/-- What holds of calls and of one piece of code behind another. -/
structure Composes (m : Type → Type) [Monad m] [MonadLiftT BuildM m]
    (P : {α : Type} → m α → Prop) : Prop where
  bind {α β : Type} {x : m α} {f : α → m β} : P x → (∀ a, P (f a)) → P (x >>= f)
  call {α : Type} {x : BuildM α} : Operation armNames x → P (liftM x : m α)
  fallInto (block : BlockId) : P (liftM (BuildM.fallInto block) : m Unit)

namespace Composes

section

variable {m : Type → Type} [Monad m] [MonadLiftT BuildM m] {P : {α : Type} → m α → Prop}

theorem ifThen (h : Composes m P) (cond : Value) {arm : m Unit} (harm : P arm) :
    P (ifThen cond arm) := by
  unfold Ir.ifThen
  refine h.bind (h.call (.appendBlock (by simp [armNames]))) fun thenBlock => ?_
  refine h.bind (h.call (.appendBlock (by simp [armNames]))) fun endBlock => ?_
  refine h.bind (h.call (.condBranch cond thenBlock endBlock)) fun _ => ?_
  refine h.bind (h.call (.moveTo thenBlock)) fun _ => ?_
  refine h.bind harm fun _ => ?_
  exact h.bind (h.fallInto endBlock) fun _ => h.call (.moveTo endBlock)

theorem ifElse (h : Composes m P) (cond : Value) {thenArm elseArm : m Unit}
    (hthen : P thenArm) (helse : P elseArm) : P (ifElse cond thenArm elseArm) := by
  unfold Ir.ifElse
  refine h.bind (h.call (.appendBlock (by simp [armNames]))) fun thenBlock => ?_
  refine h.bind (h.call (.appendBlock (by simp [armNames]))) fun elseBlock => ?_
  refine h.bind (h.call (.appendBlock (by simp [armNames]))) fun endBlock => ?_
  refine h.bind (h.call (.condBranch cond thenBlock elseBlock)) fun _ => ?_
  refine h.bind (h.call (.moveTo thenBlock)) fun _ => ?_
  refine h.bind hthen fun _ => ?_
  refine h.bind (h.fallInto endBlock) fun _ => ?_
  refine h.bind (h.call (.moveTo elseBlock)) fun _ => ?_
  refine h.bind helse fun _ => ?_
  exact h.bind (h.fallInto endBlock) fun _ => h.call (.moveTo endBlock)

end

/-- Code whose state holds a builder, and a relation that is kept by calls. -/
theorem of_calls {ε σ : Type} [MonadLiftT BuildM (EStateM ε σ)] (builder : σ → Builder)
    (hlift : ∀ {α : Type} (x : BuildM α) (s : σ),
      builder (after (liftM x : EStateM ε σ α) s) = after x (builder s))
    {R : Builder → Builder → Prop} (hrefl : ∀ b, R b b)
    (htrans : ∀ {b b' b''}, R b b' → R b' b'' → R b b'')
    (hcall : ∀ {α : Type} {x : BuildM α}, Operation armNames x → ∀ b, R b (after x b)) :
    Composes (EStateM ε σ) fun x => ∀ s, R (builder s) (builder (after x s)) where
  bind hx hf s := by
    rcases after_bind _ _ s with ⟨a, h⟩ | h
    · rw [h]
      exact htrans (hx s) (hf a _)
    · rw [h]
      exact hx s
  call hx s := by
    rw [hlift]
    exact hcall hx _
  fallInto block s := by
    rw [hlift]
    rcases BuildM.after_fallInto block (builder s) with h | h
    · rw [h]
      exact hrefl _
    · rw [h]
      exact hcall (.branch block) _

end Composes

namespace Calls

variable {names : Set String} {b b' b'' : Builder}

theorem trans (h : Calls names b b') (h' : Calls names b' b'') : Calls names b b'' := by
  induction h with
  | nil => exact h'
  | cons hx _ ih => exact .cons hx (ih h')
  | ifThen cond harm _ _ ih => exact .ifThen cond harm (ih h')
  | ifElse cond hthen helse _ _ _ ih => exact .ifElse cond hthen helse (ih h')

theorem reach (h : Calls names b b') : b.Reach (names ∪ armNames) b' := by
  have hcomposes : Composes BuildM fun x => ∀ b, Builder.Reach (names ∪ armNames) b (after x b) :=
    Composes.of_calls id (fun _ _ => rfl) (fun _ => .refl) (fun h h' => h.trans h')
      fun hx b => (hx.reach b).mono Set.subset_union_right
  induction h with
  | nil => exact .refl
  | cons hx _ ih => exact ((hx.reach _).mono Set.subset_union_left).trans ih
  | ifThen cond _ _ harm ih => exact (hcomposes.ifThen cond harm _).trans ih
  | ifElse cond _ _ _ hthen helse ih => exact (hcomposes.ifElse cond hthen helse _).trans ih

end Calls

/-! ## Scripts -/

theorem snd_attempt (x : BuildM Outcome) (b : Builder) : (attempt x b).2 = after x b := by
  unfold attempt after
  cases x b <;> rfl

/-- A command that makes a call and then only looks at the builder. -/
theorem Operation.calls_attempt {α : Type} {x : BuildM α} (hx : Operation Set.univ x)
    {f : α → BuildM Outcome} (hf : ∀ a b, after (f a) b = b) (b : Builder) :
    Calls Set.univ b (attempt (x >>= f) b).2 := by
  have hafter : after (x >>= f) b = after x b := by
    rcases after_bind x f b with ⟨a, h⟩ | h
    · rw [h, hf]
    · exact h
  rw [snd_attempt, hafter]
  exact .cons hx (.nil _)

namespace RecordM

theorem builder_build {α : Type} (x : BuildM α) (r : Recording) :
    (after (build x) r).builder = after x r.builder := by
  simp only [build, after]
  cases x r.builder <;> rfl

/-- What is noted does not matter to the builder. -/
theorem builder_note (arm : Nat) (outcome : Outcome) (r : Recording) :
    (after (note arm outcome) r).builder = r.builder := by
  unfold note after
  simp only [bind, EStateM.bind]
  cases outcome.error? <;> rfl

theorem builder_outcome (arms : Nat) (x : RecordM Unit) (b : Builder) :
    (outcome arms x b).2 = (after x ⟨b, List.replicate arms []⟩).builder := by
  unfold outcome after
  cases x ⟨b, List.replicate arms []⟩ <;> rfl

theorem composes : Composes RecordM fun x =>
    ∀ r : Recording, Calls Set.univ r.builder (after x r).builder := by
  refine Composes.of_calls Recording.builder builder_build .nil .trans ?_
  intro α x hx b
  exact .cons (hx.mono (Set.subset_univ _)) (.nil _)

end RecordM

mutual

/-- A command makes calls, whether it fails or not. -/
theorem Command.run_calls (b : Builder) : (c : Command) → Calls Set.univ b (c.run b).2
  | .blockName block | .isSealed => by
    rw [Command.run]
    exact .nil b
  | .appendBlock name => by
    rw [Command.run]
    exact Operation.calls_attempt (.appendBlock (Set.mem_univ name)) (fun _ _ => rfl) b
  | .moveTo block => by
    rw [Command.run]
    exact Operation.calls_attempt (.moveTo block) (fun _ _ => rfl) b
  | .alloca name ty => by
    rw [Command.run]
    exact Operation.calls_attempt (.alloca ty (Set.mem_univ name)) (fun _ _ => rfl) b
  | .load src => by
    rw [Command.run]
    exact Operation.calls_attempt (.load src) (fun _ _ => rfl) b
  | .store value dest => by
    rw [Command.run]
    exact Operation.calls_attempt (.store value dest) (fun _ _ => rfl) b
  | .binary op lhs rhs => by
    rw [Command.run]
    exact Operation.calls_attempt (.binary op lhs rhs) (fun _ _ => rfl) b
  | .icmp pred lhs rhs => by
    rw [Command.run]
    exact Operation.calls_attempt (.icmp pred lhs rhs) (fun _ _ => rfl) b
  | .fcmp pred lhs rhs => by
    rw [Command.run]
    exact Operation.calls_attempt (.fcmp pred lhs rhs) (fun _ _ => rfl) b
  | .cast op value ty => by
    rw [Command.run]
    exact Operation.calls_attempt (.cast op value ty) (fun _ _ => rfl) b
  | .branch block => by
    rw [Command.run]
    exact Operation.calls_attempt (.branch block) (fun _ _ => rfl) b
  | .condBranch cond thenBlock elseBlock => by
    rw [Command.run]
    exact Operation.calls_attempt (.condBranch cond thenBlock elseBlock) (fun _ _ => rfl) b
  | .ret value => by
    rw [Command.run]
    exact Operation.calls_attempt (.ret value) (fun _ _ => rfl) b
  | .ifThen cond arm => by
    rw [Command.run, RecordM.builder_outcome]
    exact RecordM.composes.ifThen cond (runArm_calls 0 arm) ⟨b, List.replicate 1 []⟩
  | .ifElse cond thenArm elseArm => by
    rw [Command.run, RecordM.builder_outcome]
    exact RecordM.composes.ifElse cond (runArm_calls 0 thenArm) (runArm_calls 1 elseArm)
      ⟨b, List.replicate 2 []⟩

theorem runArm_calls (arm : Nat) : (commands : List Command) → ∀ r : Recording,
    Calls Set.univ r.builder (after (runArm arm commands) r).builder
  | [], r => .nil r.builder
  | command :: commands, r => by
    rw [runArm]
    refine RecordM.composes.bind (fun r => ?_) (fun outcome => ?_) r
    · exact Command.run_calls r.builder command
    -- Noting an outcome may end the arm, but does not change the builder.
    · refine RecordM.composes.bind (fun r => ?_) fun _ => runArm_calls arm commands
      rw [RecordM.builder_note]
      exact .nil r.builder

end

theorem runScript_calls {commands : List Command} {b : Builder} {step : Outcome × Builder}
    (h : step ∈ runScript commands b) : Calls Set.univ b step.2 := by
  induction commands generalizing b with
  | nil => cases h
  | cons command commands ih =>
    rw [runScript] at h
    rcases List.mem_cons.mp h with rfl | h
    · exact Command.run_calls b command
    · exact (Command.run_calls b command).trans (ih h)

/-! ## Growth -/

theorem Builder.Move.grows {names : Set String} {b b' : Builder} (h : b.Move names b') :
    b.function.Grows b'.function := by
  cases h with
  | @addBlock base => exact grows_addBlock b base
  | moveTo | skipReg => exact .refl _
  | allocate _ hopen => exact hopen.grows_append _
  | store _ _ hopen => exact hopen.grows_append _
  | compute hopen => exact hopen.grows_append _
  | close hopen => exact hopen.grows_close _

theorem Builder.Reach.grows {names : Set String} {b b' : Builder} (h : b.Reach names b') :
    b.function.Grows b'.function := by
  induction h with
  | refl => exact .refl _
  | tail _ hmove ih => exact ih.trans hmove.grows

/-- Whatever is called, blocks keep their places and names and grow only at their ends, and a sealed
block stays as it is. -/
theorem Calls.function_grows {names : Set String} {b b' : Builder} (h : Calls names b b') :
    b.function.Grows b'.function :=
  h.reach.grows

/-- A sealed block, and an open one with an instruction. -/
def halfBuilt : Builder where
  function := ⟨"f", .i32,
    [⟨"entry", [], some (.br "body")⟩, ⟨"body", [.store (.int 1) ⟨"x", .i32⟩], none⟩]⟩
  current := some ⟨1⟩
  names := ⟨[("body", 0), ("entry", 0)]⟩
  temporaries := 0

/-- A conditional whose first arm goes back to the sealed block and fails there in another one. -/
def strayingArm : Command :=
  .ifElse (.bool true) [.alloca "x" .i32, .moveTo ⟨0⟩, .ifThen (.bool false) [.ret none]] []

theorem halfBuilt_grows :
    (strayingArm.run halfBuilt).2.function.blockNames =
      ["entry", "body", "if.then", "if.else", "if.end", "if.then.1", "if.end.1"] ∧
    Calls Set.univ halfBuilt (strayingArm.run halfBuilt).2 ∧
    halfBuilt.function.Grows (strayingArm.run halfBuilt).2.function :=
  ⟨by decide +kernel, Command.run_calls halfBuilt strayingArm,
    Calls.function_grows (Command.run_calls halfBuilt strayingArm)⟩

end TinyC.Ir
