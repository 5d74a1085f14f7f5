import TinyC.Proofs.Ir.Calls

/-!
# Functions that differ in names only

Two functions are alike if their blocks correspond to one another by their places: they hold the
same instructions, up to the names of slots, and their terminators lead to blocks at the same
places, whatever the labels there. What a builder does to two functions at the same place keeps
them alike.
-/

namespace TinyC.Ir

/-! ## Renaming slots -/

section

variable (r : String → String)

def Slot.rename (s : Slot) : Slot := ⟨r s.name, s.ty⟩

def Instr.renameSlots : Instr → Instr
  | .alloca dest => .alloca (dest.rename r)
  | .load dest src => .load dest (src.rename r)
  | .store value dest => .store value (dest.rename r)
  | i => i

def Block.renameSlots (b : Block) : Block :=
  { b with instrs := b.instrs.map (Instr.renameSlots r) }

def Function.renameSlots (f : Function) : Function :=
  { f with blocks := f.blocks.map (Block.renameSlots r) }

def Module.renameSlots (m : Module) : Module :=
  { m with functions := m.functions.map (Function.renameSlots r) }

end

@[simp] theorem Instr.renameSlots_id : Instr.renameSlots id = id := by
  funext i
  cases i <;> rfl

/-! ## Places instead of labels -/

/-- Where a block leads to, by the places of blocks. -/
inductive Exit
  | br (target : Nat)
  | condBr (cond : Value) (thenTarget elseTarget : Nat)
  | ret (value : Option Value)
deriving DecidableEq, Repr

def Terminator.exit (labels : List String) : Terminator → Exit
  | .br target => .br (labels.idxOf target)
  | .condBr cond thenTarget elseTarget =>
    .condBr cond (labels.idxOf thenTarget) (labels.idxOf elseTarget)
  | .ret value => .ret value

/-- The blocks without their labels. -/
def Function.unlabelled (f : Function) : List (List Instr × Option Exit) :=
  f.blocks.map fun blk => (blk.instrs, blk.terminator.map (Terminator.exit f.blockNames))

/-! ## Alike functions -/

/-- The terminators do the same where blocks are labelled as the lists say. -/
inductive Terminator.Alike (labels labels' : List String) : Terminator → Terminator → Prop
  | br {i : Nat} {l l' : String} : labels[i]? = some l → labels'[i]? = some l' →
    Alike labels labels' (.br l) (.br l')
  | condBr (cond : Value) {i j : Nat} {l l' k k' : String} :
    labels[i]? = some l → labels'[i]? = some l' → labels[j]? = some k → labels'[j]? = some k' →
    Alike labels labels' (.condBr cond l k) (.condBr cond l' k')
  | ret (value : Option Value) : Alike labels labels' (.ret value) (.ret value)

/-- The blocks hold the same code, with slots renamed by `r` and labels related by `L`. -/
structure Block.Alike (L : String → String → Prop) (r : String → String)
    (labels labels' : List String) (blk blk' : Block) : Prop where
  name : L blk.name blk'.name
  instrs : blk'.instrs = blk.instrs.map (Instr.renameSlots r)
  terminator : Option.Rel (Terminator.Alike labels labels') blk.terminator blk'.terminator

/-- The functions have the same blocks at the same places, with slots renamed by `r` and labels
related by `L`. -/
structure Function.Alike (L : String → String → Prop) (r : String → String) (f f' : Function) :
    Prop where
  name : f'.name = f.name
  ret : f'.ret = f.ret
  blocks : List.Forall₂ (Block.Alike L r f.blockNames f'.blockNames) f.blocks f'.blocks

section

variable {L : String → String → Prop} {r : String → String} {labels labels' : List String}

/-- Labels that are added behind do not matter. -/
theorem Terminator.Alike.append {t t' : Terminator} (h : t.Alike labels labels' t')
    (more more' : List String) : t.Alike (labels ++ more) (labels' ++ more') t' := by
  have hleft {l : List String} {i : Nat} {x : String} (hx : l[i]? = some x) (m : List String) :
      (l ++ m)[i]? = some x := by
    rw [List.getElem?_append_left (List.getElem?_eq_some_iff.mp hx).1, hx]
  cases h with
  | br hi hi' => exact .br (hleft hi _) (hleft hi' _)
  | condBr cond hi hi' hj hj' =>
    exact .condBr cond (hleft hi _) (hleft hi' _) (hleft hj _) (hleft hj' _)
  | ret value => exact .ret value

/-- Where labels are equal, the terminators are. -/
theorem Terminator.Alike.eq {t t' : Terminator} (h : t.Alike labels labels t') : t' = t := by
  cases h with
  | br hi hi' =>
    obtain rfl := Option.some.inj (hi.symm.trans hi')
    rfl
  | condBr cond hi hi' hj hj' =>
    obtain rfl := Option.some.inj (hi.symm.trans hi')
    obtain rfl := Option.some.inj (hj.symm.trans hj')
    rfl
  | ret value => rfl

/-- Where no label is used twice, the terminators lead to the same places. -/
theorem Terminator.Alike.exit_eq {t t' : Terminator} (h : t.Alike labels labels' t')
    (hl : labels.Nodup) (hl' : labels'.Nodup) : t'.exit labels' = t.exit labels := by
  have hplace {l : List String} (hnodup : l.Nodup) {i : Nat} {x : String} (hx : l[i]? = some x) :
      l.idxOf x = i := by
    obtain ⟨hi, rfl⟩ := List.getElem?_eq_some_iff.mp hx
    exact hnodup.idxOf_getElem i hi
  cases h with
  | br hi hi' => simp only [exit, hplace hl hi, hplace hl' hi']
  | condBr cond hi hi' hj hj' =>
    simp only [exit, hplace hl hi, hplace hl' hi', hplace hl hj, hplace hl' hj']
  | ret value => rfl

theorem Block.Alike.append {blk blk' : Block} (h : blk.Alike L r labels labels' blk')
    (more more' : List String) : blk.Alike L r (labels ++ more) (labels' ++ more') blk' := by
  obtain ⟨name, instrs, terminator⟩ := blk
  obtain ⟨name', instrs', terminator'⟩ := blk'
  obtain ⟨hname, hinstrs, hterminator⟩ := h
  refine ⟨hname, hinstrs, ?_⟩
  cases hterminator with
  | none => exact .none
  | some ht => exact .some (ht.append more more')

theorem Block.Alike.eq_renameSlots {blk blk' : Block} (h : blk.Alike Eq r labels labels blk') :
    blk' = blk.renameSlots r := by
  obtain ⟨name, instrs, terminator⟩ := blk
  obtain ⟨name', instrs', terminator'⟩ := blk'
  obtain ⟨hname, hinstrs, hterminator⟩ := h
  dsimp only at hname hinstrs hterminator
  subst hname hinstrs
  cases hterminator with
  | none => rfl
  | some ht => rw [ht.eq]; rfl

theorem Block.Alike.isSome_eq {blk blk' : Block} (h : blk.Alike L r labels labels' blk') :
    blk'.terminator.isSome = blk.terminator.isSome := by
  have hterminator := h.terminator
  generalize blk.terminator = terminator at hterminator ⊢
  generalize blk'.terminator = terminator' at hterminator ⊢
  cases hterminator <;> rfl

theorem Block.Alike.exit_eq {blk blk' : Block} (h : blk.Alike L r labels labels' blk')
    (hl : labels.Nodup) (hl' : labels'.Nodup) :
    blk'.terminator.map (Terminator.exit labels') =
      blk.terminator.map (Terminator.exit labels) := by
  have hterminator := h.terminator
  generalize blk.terminator = terminator at hterminator ⊢
  generalize blk'.terminator = terminator' at hterminator ⊢
  cases hterminator with
  | none => rfl
  | some ht => simp only [Option.map_some, ht.exit_eq hl hl']

end

namespace Function.Alike

variable {L : String → String → Prop} {r : String → String} {f f' : Function}

theorem length_eq (h : Alike L r f f') : f'.blocks.length = f.blocks.length :=
  h.blocks.length_eq.symm

theorem labels (h : Alike L r f f') : List.Forall₂ L f.blockNames f'.blockNames := by
  rw [blockNames, blockNames, List.forall₂_map_left_iff, List.forall₂_map_right_iff]
  exact h.blocks.imp fun _ _ hblk => hblk.name

/-- With equal labels, nothing but slots is renamed. -/
theorem eq_renameSlots (h : Alike Eq r f f') : f' = f.renameSlots r := by
  have hlabels : f.blockNames = f'.blockNames := by simpa using h.labels
  have hblocks : f.blocks.map (Block.renameSlots r) = f'.blocks := by
    rw [← List.forall₂_eq_eq_eq, List.forall₂_map_left_iff]
    refine h.blocks.imp fun blk blk' hblk => ?_
    rw [hlabels] at hblk
    exact hblk.eq_renameSlots.symm
  calc f' = ⟨f'.name, f'.ret, f'.blocks⟩ := rfl
    _ = f.renameSlots r := by rw [h.name, h.ret, ← hblocks]; rfl

/-- With slots as they are, the functions are the same but for their labels. -/
theorem unlabelled_eq (h : Alike L id f f') (hf : f.blockNames.Nodup)
    (hf' : f'.blockNames.Nodup) : f'.unlabelled = f.unlabelled := by
  symm
  rw [unlabelled, unlabelled, ← List.forall₂_eq_eq_eq, List.forall₂_map_left_iff,
    List.forall₂_map_right_iff]
  refine h.blocks.imp fun blk blk' hblk => ?_
  have hinstrs : blk'.instrs = blk.instrs := by simpa using hblk.instrs
  rw [hinstrs, hblk.exit_eq hf hf']

end Function.Alike

/-! ## What a builder does -/

/-- The cursors are at the same place of alike functions, and as many registers are given out. -/
structure Builder.Alike (L : String → String → Prop) (r : String → String) (b b' : Builder) :
    Prop where
  function : Function.Alike L r b.function b'.function
  current : b'.current = b.current
  temporaries : b'.temporaries = b.temporaries

theorem Builder.blockName?_eq (b : Builder) (block : BlockId) :
    b.blockName? block = b.function.blockNames[block.index]? := by
  simp [blockName?, Function.blockNames]

theorem Builder.nextSlot_eq_rename {b b' : Builder} {r : String → String} {base base' : String}
    (h : (b'.names.fresh base').1 = r (b.names.fresh base).1) (ty : Ty) :
    b'.nextSlot base' ty = (b.nextSlot base ty).rename r :=
  congrArg (Slot.mk · ty) h

@[simp] theorem Builder.names_append (b : Builder) (code : List Instr) :
    (b.append code).names = b.names := by
  simp [append]

@[simp] theorem Builder.names_compute (b : Builder) (code : List Instr) :
    (b.compute code).names = b.names := by
  simp [compute]

@[simp] theorem Builder.names_close (b : Builder) (t : Terminator) :
    (b.close t).names = b.names := by
  simp [close]

/-- What is done to related elements at the same place keeps lists related. -/
theorem forall₂_modify {α β : Type} {R : α → β → Prop} {l : List α} {l' : List β}
    (h : List.Forall₂ R l l') {g : α → α} {g' : β → β} (hg : ∀ a b, R a b → R (g a) (g' b))
    (i : Nat) : List.Forall₂ R (l.modify i g) (l'.modify i g') := by
  induction h generalizing i with
  | nil => simp
  | cons hab hl ih =>
    cases i with
    | zero => simpa using ⟨hg _ _ hab, hl⟩
    | succ i => simpa using ⟨hab, ih i⟩

theorem getElem?_forall₂ {α β : Type} {R : α → β → Prop} {l : List α} {l' : List β}
    (h : List.Forall₂ R l l') (i : Nat) : Option.Rel R l[i]? l'[i]? := by
  induction h generalizing i with
  | nil => exact .none
  | cons hab _ ih =>
    cases i with
    | zero => exact .some hab
    | succ i => exact ih i

namespace Builder.Alike

variable {L : String → String → Prop} {r : String → String} {b b' : Builder}

theorem nextReg_eq (h : Alike L r b b') (ty : Ty) : b'.nextReg ty = b.nextReg ty := by
  rw [nextReg, nextReg, h.temporaries]

theorem moveTo (h : Alike L r b b') (j : Nat) : (b.moveTo j).Alike L r (b'.moveTo j) :=
  ⟨h.function, rfl, h.temporaries⟩

theorem addBlock (h : Alike L r b b') {base base' : String}
    (hname : L (b.names.fresh base).1 (b'.names.fresh base').1) :
    (b.addBlock base).Alike L r (b'.addBlock base') where
  function := by
    refine ⟨h.function.name, h.function.ret, ?_⟩
    rw [blockNames_addBlock, blockNames_addBlock]
    refine List.rel_append (h.function.blocks.imp fun _ _ hblk => hblk.append _ _) ?_
    exact .cons ⟨hname, rfl, .none⟩ .nil
  current := h.current
  temporaries := h.temporaries

theorem modifyCurrent (h : Alike L r b b') {g g' : Block → Block}
    (hname : ∀ blk, (g blk).name = blk.name) (hname' : ∀ blk, (g' blk).name = blk.name)
    (hg : ∀ blk blk', blk.Alike L r b.function.blockNames b'.function.blockNames blk' →
      (g blk).Alike L r b.function.blockNames b'.function.blockNames (g' blk')) :
    (b.modifyCurrent g).Alike L r (b'.modifyCurrent g') where
  function := by
    refine ⟨by simp [h.function.name], by simp [h.function.ret], ?_⟩
    rw [b.blockNames_modifyCurrent hname, b'.blockNames_modifyCurrent hname']
    unfold Builder.modifyCurrent
    rw [h.current]
    cases b.current with
    | none => exact h.function.blocks
    | some block => exact forall₂_modify h.function.blocks hg block.index
  current := by simp [h.current]
  temporaries := by simp [h.temporaries]

theorem append (h : Alike L r b b') (code : List Instr) :
    (b.append code).Alike L r (b'.append (code.map (Instr.renameSlots r))) := by
  refine h.modifyCurrent (fun _ => rfl) (fun _ => rfl) fun blk blk' hblk => ?_
  exact ⟨hblk.name, by simp [hblk.instrs], hblk.terminator⟩

theorem compute (h : Alike L r b b') (code : List Instr) :
    (b.compute code).Alike L r (b'.compute (code.map (Instr.renameSlots r))) where
  function := (h.append code).function
  current := (h.append code).current
  temporaries := by simp [Builder.compute, h.temporaries]

theorem allocate (h : Alike L r b b') {base base' : String}
    (hname : (b'.names.fresh base').1 = r (b.names.fresh base).1) (ty : Ty) :
    (b.allocate base ty).Alike L r (b'.allocate base' ty) := by
  unfold Builder.allocate
  rw [nextSlot_eq_rename hname]
  have happend := h.append [.alloca (b.nextSlot base ty)]
  exact ⟨happend.function, happend.current, happend.temporaries⟩

theorem close (h : Alike L r b b') {t t' : Terminator}
    (ht : t.Alike b.function.blockNames b'.function.blockNames t') :
    (b.close t).Alike L r (b'.close t') := by
  refine h.modifyCurrent (fun _ => rfl) (fun _ => rfl) fun blk blk' hblk => ?_
  exact ⟨hblk.name, hblk.instrs, .some ht⟩

theorem isSealed_eq (h : Alike L r b b') : b'.isSealed = b.isSealed := by
  have hplace (i : Nat) : (b'.function.blocks[i]?).any (·.terminator.isSome) =
      (b.function.blocks[i]?).any (·.terminator.isSome) := by
    have hblocks := getElem?_forall₂ h.function.blocks i
    generalize b.function.blocks[i]? = blk at hblocks ⊢
    generalize b'.function.blocks[i]? = blk' at hblocks ⊢
    cases hblocks with
    | none => rfl
    | some hblk => exact hblk.isSome_eq
  unfold Builder.isSealed Builder.currentBlock?
  rw [h.current]
  cases b.current with
  | none => rfl
  | some block => exact hplace block.index

end Builder.Alike

/-! ## Operations that succeed -/

namespace BuildM

variable {b b₁ : Builder}

/-- An operation that closed blocks refuse has found an open block if it succeeds. -/
theorem eq_of_eq_ok {α : Type} {x : BuildM α} {a a' : α} {b₂ : Builder}
    (hrefused : ∀ e, b.refusal? = some e → ∃ b', x b = .error e b')
    (hopen : b.Open → x b = .ok a' b₂) (h : x b = .ok a b₁) : a = a' ∧ b₁ = b₂ := by
  cases hrefusal : b.refusal? with
  | some e =>
    obtain ⟨b', hb'⟩ := hrefused e hrefusal
    rw [hb'] at h
    cases h
  | none =>
    rw [hopen (Builder.open_of_refusal? hrefusal)] at h
    cases h
    exact ⟨rfl, rfl⟩

theorem emit_eq_ok {instr : Instr} {a : Unit} (h : emit instr b = .ok a b₁) :
    b₁ = b.append [instr] :=
  (eq_of_eq_ok (fun _ he => ⟨b, emit_refused he instr⟩) (emit_open · instr) h).2

theorem define_eq_ok {ty : Ty} {instr : Reg → Instr} {v : Value}
    (h : (do
      let dest ← freshReg ty
      emit (instr dest)
      return Value.reg dest : BuildM Value) b = .ok v b₁) :
    v = .reg (b.nextReg ty) ∧ b₁ = b.compute [instr (b.nextReg ty)] :=
  eq_of_eq_ok (fun _ he => ⟨b.skipReg, define_refused he ty instr⟩) (define_open · ty instr) h

theorem alloca_eq_ok {base : String} {ty : Ty} {slot : Slot}
    (h : alloca base ty b = .ok slot b₁) :
    slot = b.nextSlot base ty ∧ b₁ = b.allocate base ty :=
  eq_of_eq_ok (fun _ he => ⟨b, alloca_refused he base ty⟩) (alloca_open · base ty) h

theorem terminate_eq_ok {t : Terminator} {a : Unit} (h : terminate t b = .ok a b₁) :
    b₁ = b.close t :=
  (eq_of_eq_ok (fun _ he => ⟨b, terminate_refused he t⟩) (terminate_open · t) h).2

theorem branch_eq_ok {block : BlockId} {a : Unit} (h : branch block b = .ok a b₁) :
    ∃ l, b.blockName? block = some l ∧ b₁ = b.close (.br l) := by
  cases hl : b.blockName? block with
  | none =>
    rw [branch_unknown hl] at h
    cases h
  | some l =>
    rw [branch_known hl] at h
    exact ⟨l, rfl, terminate_eq_ok h⟩

theorem condBranch_eq_ok {cond : Value} {thenBlock elseBlock : BlockId} {a : Unit}
    (h : condBranch cond thenBlock elseBlock b = .ok a b₁) :
    ∃ l k, b.blockName? thenBlock = some l ∧ b.blockName? elseBlock = some k ∧
      b₁ = b.close (.condBr cond l k) := by
  cases hl : b.blockName? thenBlock with
  | none =>
    rw [condBranch_unknown cond (.inl hl)] at h
    cases h
  | some l =>
    cases hk : b.blockName? elseBlock with
    | none =>
      rw [condBranch_unknown cond (.inr hk)] at h
      cases h
    | some k =>
      rw [condBranch_known cond hl hk] at h
      exact ⟨l, k, rfl, rfl, terminate_eq_ok h⟩

end BuildM

/-- Where both succeed, alike builders stay alike, no name is given out, and the results are
equal. -/
def BuildM.Mirrors (L : String → String → Prop) (r : String → String) {α : Type}
    (x y : BuildM α) : Prop :=
  ∀ ⦃b b' b₁ b₁' : Builder⦄ ⦃a a' : α⦄, b.Alike L r b' → x b = .ok a b₁ → y b' = .ok a' b₁' →
    b₁.Alike L r b₁' ∧ b₁.names = b.names ∧ b₁'.names = b'.names ∧ a' = a

namespace BuildM.Mirrors

variable {L : String → String → Prop} {r : String → String}

theorem moveTo (block : BlockId) : Mirrors L r (moveTo block) (moveTo block) := by
  intro b b' b₁ b₁' a a' h hb hb'
  cases hb
  cases hb'
  exact ⟨h.moveTo block.index, rfl, rfl, rfl⟩

theorem store (value : Value) (slot : Slot) :
    Mirrors L r (store value slot) (store value (slot.rename r)) := by
  intro b b' b₁ b₁' a a' h hb hb'
  obtain rfl := emit_eq_ok hb
  obtain rfl := emit_eq_ok hb'
  exact ⟨h.append _, Builder.names_append .., Builder.names_append .., rfl⟩

theorem define (ty : Ty) {instr instr' : Reg → Instr}
    (hinstr : ∀ dest, instr' dest = (instr dest).renameSlots r) :
    Mirrors L r
      (do
        let dest ← freshReg ty
        emit (instr dest)
        return Value.reg dest)
      (do
        let dest ← freshReg ty
        emit (instr' dest)
        return Value.reg dest) := by
  intro b b' b₁ b₁' v v' h hb hb'
  obtain ⟨rfl, rfl⟩ := define_eq_ok hb
  obtain ⟨rfl, rfl⟩ := define_eq_ok hb'
  rw [h.nextReg_eq, hinstr]
  exact ⟨h.compute _, Builder.names_compute .., Builder.names_compute .., rfl⟩

theorem load (slot : Slot) : Mirrors L r (load slot) (load (slot.rename r)) :=
  define slot.ty fun _ => rfl

theorem ret (value : Option Value) : Mirrors L r (ret value) (ret value) := by
  intro b b' b₁ b₁' a a' h hb hb'
  obtain rfl := terminate_eq_ok hb
  obtain rfl := terminate_eq_ok hb'
  exact ⟨h.close (.ret value), Builder.names_close .., Builder.names_close .., rfl⟩

theorem branch (block : BlockId) : Mirrors L r (branch block) (branch block) := by
  intro b b' b₁ b₁' a a' h hb hb'
  obtain ⟨l, hl, rfl⟩ := branch_eq_ok hb
  obtain ⟨l', hl', rfl⟩ := branch_eq_ok hb'
  rw [Builder.blockName?_eq] at hl hl'
  exact ⟨h.close (.br hl hl'), Builder.names_close .., Builder.names_close .., rfl⟩

theorem condBranch (cond : Value) (thenBlock elseBlock : BlockId) :
    Mirrors L r (condBranch cond thenBlock elseBlock) (condBranch cond thenBlock elseBlock) := by
  intro b b' b₁ b₁' a a' h hb hb'
  obtain ⟨l, k, hl, hk, rfl⟩ := condBranch_eq_ok hb
  obtain ⟨l', k', hl', hk', rfl⟩ := condBranch_eq_ok hb'
  rw [Builder.blockName?_eq] at hl hl' hk hk'
  exact ⟨h.close (.condBr cond hl hl' hk hk'), Builder.names_close .., Builder.names_close .., rfl⟩

theorem fallInto (block : BlockId) : Mirrors L r (fallInto block) (fallInto block) := by
  intro b b' b₁ b₁' a a' h hb hb'
  rw [fallInto_apply] at hb hb'
  rw [h.isSealed_eq] at hb'
  cases hsealed : b.isSealed with
  | true =>
    simp only [hsealed, if_true] at hb hb'
    cases hb
    cases hb'
    exact ⟨h, rfl, rfl, rfl⟩
  | false =>
    simp only [hsealed, Bool.false_eq_true, if_false] at hb hb'
    exact branch block h hb hb'

end BuildM.Mirrors

end TinyC.Ir
