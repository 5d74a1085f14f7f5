import TinyC.Proofs.Ir.Text

/-!
# The text of a module says all there is

A text is made of lines, the lines of a function fall into blocks, and a line is made of words. The
words of an instruction leave out some of its types, but a well-typed instruction has no choice of
them. Main statement: two legible modules of one function that have the same text are the same.
-/

namespace TinyC.Ir

/-! ## Instructions -/

def Instr.words : Instr → List String
  | .alloca dest => [dest.text, "=", "alloca", dest.ty.text]
  | .load dest src =>
    [dest.text, "=", "load", dest.ty.text ++ ",", src.ty.text ++ "*", src.text]
  | .store value dest =>
    ["store", value.ty.text, value.text ++ ",", dest.ty.text ++ "*", dest.text]
  | .binary dest op lhs rhs =>
    [dest.text, "=", op.text, lhs.ty.text, lhs.text ++ ",", rhs.text]
  | .icmp dest pred lhs rhs =>
    [dest.text, "=", "icmp", pred.text, lhs.ty.text, lhs.text ++ ",", rhs.text]
  | .fcmp dest pred lhs rhs =>
    [dest.text, "=", "fcmp", pred.text, lhs.ty.text, lhs.text ++ ",", rhs.text]
  | .cast dest op value =>
    [dest.text, "=", op.text, value.ty.text, value.text, "to", dest.ty.text]

theorem Instr.text_eq (i : Instr) : i.text = unwords i.words := by
  rw [← String.toList_inj]
  cases i with
  | _ => simp [text, words, Value.typed, Slot.pointer]

theorem Instr.words_ne_nil (i : Instr) : i.words ≠ [] := by
  cases i with
  | _ => simp [words]

theorem Opcode.text_injective : Function.Injective Opcode.text := by
  have hnodup : (List.map text [.add, .sub, .mul, .sdiv, .srem, .fadd, .fsub, .fmul, .fdiv, .frem,
    .and, .or]).Nodup := by decide
  intro a b
  exact List.inj_on_of_nodup_map hnodup (by cases a <;> decide) (by cases b <;> decide)

theorem IntPredicate.text_injective : Function.Injective IntPredicate.text := by
  have hnodup : (List.map text [.eq, .ne, .slt, .sle, .sgt, .sge]).Nodup := by decide
  intro a b
  exact List.inj_on_of_nodup_map hnodup (by cases a <;> decide) (by cases b <;> decide)

theorem FloatPredicate.text_injective : Function.Injective FloatPredicate.text := by
  have hnodup : (List.map text [.oeq, .one, .olt, .ole, .ogt, .oge]).Nodup := by decide
  intro a b
  exact List.inj_on_of_nodup_map hnodup (by cases a <;> decide) (by cases b <;> decide)

theorem CastOp.text_injective : Function.Injective CastOp.text := by
  have hnodup : (List.map text [.sitofp, .fptosi, .zext, .uitofp]).Nodup := by decide
  intro a b
  exact List.inj_on_of_nodup_map hnodup (by cases a <;> decide) (by cases b <;> decide)

@[simp] theorem Opcode.unbroken_text (op : Opcode) : Unbroken op.text := by
  cases op <;> decide

@[simp] theorem IntPredicate.unbroken_text (pred : IntPredicate) : Unbroken pred.text := by
  cases pred <;> decide

@[simp] theorem FloatPredicate.unbroken_text (pred : FloatPredicate) : Unbroken pred.text := by
  cases pred <;> decide

@[simp] theorem CastOp.unbroken_text (op : CastOp) : Unbroken op.text := by
  cases op <;> decide

theorem Opcode.text_ne_load (op : Opcode) : op.text ≠ "load" := by
  cases op <;> decide

theorem CastOp.text_ne_icmp (op : CastOp) : op.text ≠ "icmp" := by
  cases op <;> decide

theorem CastOp.text_ne_fcmp (op : CastOp) : op.text ≠ "fcmp" := by
  cases op <;> decide

/-- Both operands of one type are told from their texts. -/
theorem Value.pair_inj {l r l' r' : Value} {ty : Ty} (h : ∀ v ∈ [l, r], v.Legible)
    (h' : ∀ v ∈ [l', r'], v.Legible) (hty : l.ty = ty ∧ r.ty = ty) (hty' : l'.ty = ty ∧ r'.ty = ty)
    (hl : l.text = l'.text) (hr : r.text = r'.text) : l = l' ∧ r = r' := by
  simp only [List.forall_mem_cons] at h h'
  exact ⟨h.1.text_inj h'.1 (hty.1.trans hty'.1.symm) hl,
    h.2.1.text_inj h'.2.1 (hty.2.trans hty'.2.symm) hr⟩

/-- The instruction is well typed, its names have no blanks and its constants are quiet. -/
structure Instr.Legible (i : Instr) : Prop where
  typed : i.WellTyped
  operands : ∀ v ∈ i.operands, v.Legible
  dest : ∀ r ∈ i.dest?, Unbroken r.name
  slot : ∀ s ∈ i.slot?, Unbroken s.name
  made : ∀ s ∈ i.made?, Unbroken s.name

namespace Instr.Legible

variable {i j : Instr}

theorem unbroken (h : i.Legible) : ∀ word ∈ i.words, Unbroken word := by
  have hoperands : ∀ v ∈ i.operands, Unbroken v.text := fun v hv => (h.operands v hv).unbroken
  obtain ⟨-, -, hdest, hslot, hmade⟩ := h
  have hmarks : Unbroken "%" ∧ Unbroken "=" ∧ Unbroken "," ∧ Unbroken "*" ∧ Unbroken "alloca" ∧
    Unbroken "load" ∧ Unbroken "store" ∧ Unbroken "icmp" ∧ Unbroken "fcmp" ∧ Unbroken "to" := by
    decide
  cases i with
  | alloca dest => simpa [words, Slot.text, hmarks] using hmade dest rfl
  | load dest src =>
    simpa [words, Reg.text, Slot.text, hmarks] using ⟨hdest dest rfl, hslot src rfl⟩
  | store value dest =>
    have hvalue := hoperands value (by simp [Instr.operands])
    simpa [words, Slot.text, hmarks] using ⟨hvalue, hslot dest rfl⟩
  | binary dest _ lhs rhs | icmp dest _ lhs rhs | fcmp dest _ lhs rhs =>
    have hlhs := hoperands lhs (by simp [Instr.operands])
    have hrhs := hoperands rhs (by simp [Instr.operands])
    simpa [words, Reg.text, hmarks] using ⟨hdest dest rfl, hlhs, hrhs⟩
  | cast dest op value =>
    have hvalue := hoperands value (by simp [Instr.operands])
    simpa [words, Reg.text, hmarks] using ⟨hdest dest rfl, hvalue⟩

theorem words_inj (hi : i.Legible) (hj : j.Legible) (h : i.words = j.words) : i = j := by
  have htyped := hi.typed
  have htyped' := hj.typed
  have hvalues := hi.operands
  have hvalues' := hj.operands
  -- The number of words and the third of them tell the kinds of instructions apart.
  cases i with
  | alloca dest =>
    cases j with
    | alloca dest' =>
      simp only [words, List.cons.injEq, true_and, and_true] at h
      rw [Slot.eq_of_text (Ty.text_injective h.2) h.1]
    | _ => simp [words] at h
  | load dest src =>
    cases j with
    | load dest' src' =>
      simp only [words, List.cons.injEq, String.append_left_inj, true_and, and_true] at h
      obtain ⟨hdest, hdestTy, hsrcTy, hsrc⟩ := h
      rw [Reg.eq_of_text (Ty.text_injective hdestTy) hdest,
        Slot.eq_of_text (Ty.text_injective hsrcTy) hsrc]
    | binary dest' op lhs rhs =>
      simp only [words, List.cons.injEq] at h
      exact absurd h.2.2.1.symm op.text_ne_load
    | _ => simp [words] at h
  | store value dest =>
    cases j with
    | store value' dest' =>
      simp only [words, List.cons.injEq, String.append_left_inj, true_and, and_true] at h
      obtain ⟨hty, hvalue, hdestTy, hdest⟩ := h
      simp only [Instr.operands, List.forall_mem_singleton] at hvalues hvalues'
      rw [hvalues.text_inj hvalues' (Ty.text_injective hty) hvalue,
        Slot.eq_of_text (Ty.text_injective hdestTy) hdest]
    | _ => simp [words] at h
  | binary dest op lhs rhs =>
    cases j with
    | binary dest' op' lhs' rhs' =>
      simp only [words, List.cons.injEq, String.append_left_inj, true_and, and_true] at h
      obtain ⟨hdest, hop, -, hlhs, hrhs⟩ := h
      obtain rfl := Opcode.text_injective hop
      obtain ⟨rfl, rfl⟩ := Value.pair_inj hvalues hvalues' htyped.2 htyped'.2 hlhs hrhs
      rw [Reg.eq_of_text (htyped.1.trans htyped'.1.symm) hdest]
    | load dest' src' =>
      simp only [words, List.cons.injEq] at h
      exact absurd h.2.2.1 op.text_ne_load
    | _ => simp [words] at h
  | icmp dest pred lhs rhs =>
    cases j with
    | icmp dest' pred' lhs' rhs' =>
      simp only [words, List.cons.injEq, String.append_left_inj, true_and, and_true] at h
      obtain ⟨hdest, hpred, -, hlhs, hrhs⟩ := h
      obtain rfl := IntPredicate.text_injective hpred
      obtain ⟨rfl, rfl⟩ := Value.pair_inj hvalues hvalues' htyped.2 htyped'.2 hlhs hrhs
      rw [Reg.eq_of_text (htyped.1.trans htyped'.1.symm) hdest]
    | cast dest' op value =>
      simp only [words, List.cons.injEq] at h
      exact absurd h.2.2.1.symm op.text_ne_icmp
    | _ => simp [words] at h
  | fcmp dest pred lhs rhs =>
    cases j with
    | fcmp dest' pred' lhs' rhs' =>
      simp only [words, List.cons.injEq, String.append_left_inj, true_and, and_true] at h
      obtain ⟨hdest, hpred, -, hlhs, hrhs⟩ := h
      obtain rfl := FloatPredicate.text_injective hpred
      obtain ⟨rfl, rfl⟩ := Value.pair_inj hvalues hvalues' htyped.2 htyped'.2 hlhs hrhs
      rw [Reg.eq_of_text (htyped.1.trans htyped'.1.symm) hdest]
    | cast dest' op value =>
      simp only [words, List.cons.injEq] at h
      exact absurd h.2.2.1.symm op.text_ne_fcmp
    | _ => simp [words] at h
  | cast dest op value =>
    cases j with
    | cast dest' op' value' =>
      simp only [words, List.cons.injEq, true_and, and_true] at h
      obtain ⟨hdest, hop, hty, hvalue, hdestTy⟩ := h
      simp only [Instr.operands, List.forall_mem_singleton] at hvalues hvalues'
      rw [Reg.eq_of_text (Ty.text_injective hdestTy) hdest, CastOp.text_injective hop,
        hvalues.text_inj hvalues' (Ty.text_injective hty) hvalue]
    | icmp dest' pred lhs rhs =>
      simp only [words, List.cons.injEq] at h
      exact absurd h.2.2.1 op.text_ne_icmp
    | fcmp dest' pred lhs rhs =>
      simp only [words, List.cons.injEq] at h
      exact absurd h.2.2.1 op.text_ne_fcmp
    | _ => simp [words] at h

theorem not_mem_text (h : i.Legible) : '\n' ∉ i.text.toList := by
  rw [i.text_eq]
  exact not_mem_unwords h.unbroken

end Instr.Legible

theorem Instr.injOn_text : Set.InjOn text {i | i.Legible} := by
  intro i hi j hj h
  rw [i.text_eq, j.text_eq] at h
  exact hi.words_inj hj (unwords_inj hi.unbroken hj.unbroken i.words_ne_nil j.words_ne_nil h)

/-! ## Terminators -/

def Terminator.words : Terminator → List String
  | .br target => ["br", "label", "%" ++ target]
  | .condBr cond thenTarget elseTarget =>
    ["br", "i1", cond.text ++ ",", "label", "%" ++ thenTarget ++ ",", "label", "%" ++ elseTarget]
  | .ret (some value) => ["ret", value.ty.text, value.text]
  | .ret none => ["ret", "void"]

theorem Terminator.text_eq (t : Terminator) : t.text = unwords t.words := by
  rw [← String.toList_inj]
  cases t with
  | br target => simp [text, words]
  | condBr cond thenTarget elseTarget => simp [text, words]
  | ret value =>
    cases value with
    | none => simp [text, words]
    | some value => simp [text, words, Value.typed]

theorem Terminator.words_ne_nil (t : Terminator) : t.words ≠ [] := by
  cases t with
  | ret value => cases value <;> simp [words]
  | _ => simp [words]

/-- The terminator tests a truth value, its targets have no blanks and its constants are quiet. -/
structure Terminator.Legible (t : Terminator) : Prop where
  typed : ∃ ret, t.WellTyped ret
  targets : ∀ name ∈ t.targets, Unbroken name
  operands : ∀ v ∈ t.operands, v.Legible

namespace Terminator.Legible

variable {t u : Terminator}

theorem unbroken (h : t.Legible) : ∀ word ∈ t.words, Unbroken word := by
  have hoperands : ∀ v ∈ t.operands, Unbroken v.text := fun v hv => (h.operands v hv).unbroken
  have hmarks : Unbroken "%" ∧ Unbroken "," ∧ Unbroken "br" ∧ Unbroken "i1" ∧ Unbroken "label" ∧
    Unbroken "ret" ∧ Unbroken "void" := by decide
  cases t with
  | br target => simpa [words, hmarks] using h.targets target (by simp [Terminator.targets])
  | condBr cond thenTarget elseTarget =>
    have hcond := hoperands cond (by simp [Terminator.operands])
    have hthen := h.targets thenTarget (by simp [Terminator.targets])
    have helse := h.targets elseTarget (by simp [Terminator.targets])
    simpa [words, hmarks] using ⟨hcond, hthen, helse⟩
  | ret value =>
    cases value with
    | none => simp [words, hmarks]
    | some value =>
      simpa [words, hmarks] using hoperands value (by simp [Terminator.operands])

theorem words_inj (ht : t.Legible) (hu : u.Legible) (h : t.words = u.words) : t = u := by
  obtain ⟨ret, htyped⟩ := ht.typed
  obtain ⟨ret', htyped'⟩ := hu.typed
  cases t with
  | br target =>
    cases u with
    | br target' => simpa [words] using h
    | ret value => cases value <;> simp [words] at h
    | _ => simp [words] at h
  | condBr cond thenTarget elseTarget =>
    cases u with
    | condBr cond' thenTarget' elseTarget' =>
      simp only [words, List.cons.injEq, String.append_left_inj, String.append_right_inj, true_and,
        and_true] at h
      obtain ⟨hcond, rfl, rfl⟩ := h
      have hcond₁ := ht.operands cond (by simp [Terminator.operands])
      have hcond₂ := hu.operands cond' (by simp [Terminator.operands])
      rw [hcond₁.text_inj hcond₂ (htyped.trans htyped'.symm) hcond]
    | ret value => cases value <;> simp [words] at h
    | _ => simp [words] at h
  | ret value =>
    obtain ⟨v, rfl, -⟩ := htyped
    cases u with
    | ret value' =>
      obtain ⟨v', rfl, -⟩ := htyped'
      simp only [words, List.cons.injEq, true_and, and_true] at h
      have hv := ht.operands v (by simp [Terminator.operands])
      have hv' := hu.operands v' (by simp [Terminator.operands])
      rw [hv.text_inj hv' (Ty.text_injective h.1) h.2]
    | _ => simp [words] at h

theorem not_mem_text (h : t.Legible) : '\n' ∉ t.text.toList := by
  rw [t.text_eq]
  exact not_mem_unwords h.unbroken

end Terminator.Legible

theorem Terminator.injOn_text : Set.InjOn text {t | t.Legible} := by
  intro t ht u hu h
  rw [t.text_eq, u.text_eq] at h
  exact ht.words_inj hu (unwords_inj ht.unbroken hu.unbroken t.words_ne_nil u.words_ne_nil h)

/-! ## Blocks -/

/-- The lines of a block with its name. -/
def Block.rows (b : Block) : List String := (b.name ++ ":") :: b.lines.map ("  " ++ ·)

theorem Block.text_eq (b : Block) : b.text = unlines b.rows := by
  rw [rows, unlines_cons, unlines, List.map_map]
  simp [text, String.append_assoc, Function.comp_def]

/-- The block is closed, and what is in it is legible. -/
structure Block.Legible (b : Block) : Prop where
  name : Unbroken b.name
  instrs : ∀ i ∈ b.instrs, i.Legible
  terminator : ∃ t, b.terminator = some t ∧ t.Legible

namespace Block.Legible

variable {b : Block}

theorem not_mem_lines (h : b.Legible) : ∀ line ∈ b.lines, '\n' ∉ line.toList := by
  obtain ⟨t, hterminator, ht⟩ := h.terminator
  simp only [lines, hterminator, Option.map_some, Option.toList_some, List.forall_mem_append,
    List.forall_mem_map, List.forall_mem_singleton]
  exact ⟨fun i hi => (h.instrs i hi).not_mem_text, ht.not_mem_text⟩

theorem not_mem_rows (h : b.Legible) : ∀ row ∈ b.rows, '\n' ∉ row.toList := by
  rw [rows, List.forall_mem_cons, List.forall_mem_map]
  refine ⟨by simpa using h.name.not_mem (c := '\n') rfl, fun line hline => ?_⟩
  simpa using h.not_mem_lines line hline

end Block.Legible

/-- No line of a block is empty, so that an empty line can stand between blocks. -/
theorem Block.empty_not_mem_rows (b : Block) : "" ∉ b.rows := by
  have hne : ∀ row ∈ b.rows, row.toList ≠ [] := by
    rw [rows, List.forall_mem_cons, List.forall_mem_map]
    exact ⟨by simp, fun line _ => by simp⟩
  exact fun hmem => hne "" hmem rfl

theorem Block.injOn_rows : Set.InjOn rows {b | b.Legible} := by
  intro b hb c hc h
  obtain ⟨t, hterminator, ht⟩ := hb.terminator
  obtain ⟨u, hterminator', hu⟩ := hc.terminator
  simp only [rows, List.cons.injEq, String.append_left_inj] at h
  have hlines := List.map_injective_iff.mpr (fun _ _ => (String.append_right_inj "  ").mp) h.2
  simp only [lines, hterminator, hterminator', Option.map_some, Option.toList_some] at hlines
  obtain ⟨hinstrs, hlast⟩ := List.append_inj' hlines rfl
  obtain ⟨name, instrs, terminator⟩ := b
  obtain ⟨name', instrs', terminator'⟩ := c
  obtain rfl : name = name' := h.1
  obtain rfl : instrs = instrs' := eq_of_map_eq Instr.injOn_text hb.instrs hc.instrs hinstrs
  obtain rfl := Terminator.injOn_text ht hu (List.singleton_inj.mp hlast)
  rw [show terminator = some t from hterminator, show terminator' = some t from hterminator']

/-! ## Functions -/

/-- The words of the line that a function starts with. -/
def Function.header (f : Function) : List String :=
  ["define", f.ret.text, "@" ++ f.name ++ "()", "\x7b"]

def Function.rows (f : Function) : List String :=
  unwords f.header ::
    ([""].intercalate (f.blocks.map Block.rows) ++ ["\x7d"])

theorem Function.text_eq (f : Function) : f.text = unlines f.rows := by
  have hblocks : f.blocks.map Block.text = (f.blocks.map Block.rows).map unlines := by
    simp [Block.text_eq]
  rw [rows, unlines_cons, unlines_append, ← intercalate_unlines, ← hblocks, ← String.toList_inj]
  simp [text, header]

structure Function.Legible (f : Function) : Prop where
  name : Unbroken f.name
  nonempty : f.blocks ≠ []
  blocks : ∀ b ∈ f.blocks, b.Legible

namespace Function.Legible

variable {f : Function}

theorem unbroken_header (hf : f.Legible) : ∀ word ∈ f.header, Unbroken word := by
  have hmarks : Unbroken "define" ∧ Unbroken "@" ∧ Unbroken "()" ∧ Unbroken "\x7b" := by decide
  simpa [header, hmarks] using hf.name

theorem not_mem_rows (hf : f.Legible) : ∀ row ∈ f.rows, '\n' ∉ row.toList := by
  rw [rows, List.forall_mem_cons, List.forall_mem_append]
  refine ⟨not_mem_unwords hf.unbroken_header, ?_, by simp⟩
  refine forall_mem_intercalate (by simp) ?_
  rw [List.forall_mem_map]
  exact fun b hb => (hf.blocks b hb).not_mem_rows

end Function.Legible

theorem Function.injOn_rows : Set.InjOn rows {f | f.Legible} := by
  intro f hf g hg h
  simp only [rows, List.cons.injEq, List.append_cancel_right_eq] at h
  obtain ⟨hheader, hblocks⟩ := h
  have hwords := unwords_inj hf.unbroken_header hg.unbroken_header (by simp [header])
    (by simp [header]) hheader
  simp only [header, List.cons.injEq, String.append_left_inj, String.append_right_inj, true_and,
    and_true] at hwords
  -- The blocks are divided at the empty lines.
  have hparts := congrArg (List.splitOn "") hblocks
  have hempty : ∀ (blocks : List Block), ∀ part ∈ blocks.map Block.rows, "" ∉ part := by
    intro blocks
    rw [List.forall_mem_map]
    exact fun b _ => b.empty_not_mem_rows
  rw [List.splitOn_intercalate _ (hempty _) (by simpa using hf.nonempty),
    List.splitOn_intercalate _ (hempty _) (by simpa using hg.nonempty)] at hparts
  obtain ⟨name, ret, blocks⟩ := f
  obtain ⟨name', ret', blocks'⟩ := g
  obtain rfl : ret = ret' := Ty.text_injective hwords.1
  obtain rfl : name = name' := hwords.2
  obtain rfl : blocks = blocks' := eq_of_map_eq Block.injOn_rows hf.blocks hg.blocks hparts
  rfl

/-! ## Modules -/

def Module.rows (m : Module) : List String :=
  ("; ModuleID = \"" ++ m.name ++ "\"") :: m.functions.flatMap fun f => "" :: f.rows

theorem Module.text_eq (m : Module) : m.text = unlines m.rows := by
  have hfunctions : unlines (m.functions.flatMap fun f => "" :: f.rows) =
      String.join (m.functions.map fun f => "\n" ++ f.text) := by
    induction m.functions with
    | nil => rfl
    | cons f functions ih => simp [ih, f.text_eq, String.append_assoc]
  have hmark : "\"\n" = "\"" ++ "\n" := rfl
  change "; ModuleID = \"" ++ m.name ++ "\"\n" ++ _ = _
  rw [rows, unlines_cons, hfunctions, hmark, ← String.append_assoc]

/-- The module has one function, and both are legible. -/
structure Module.Legible (m : Module) : Prop where
  name : Unbroken m.name
  functions : ∃ f, m.functions = [f] ∧ f.Legible

theorem Module.Legible.not_mem_rows {m : Module} (h : m.Legible) :
    ∀ row ∈ m.rows, '\n' ∉ row.toList := by
  obtain ⟨f, hfunctions, hf⟩ := h.functions
  have hname : '\n' ∉ m.name.toList := h.name.not_mem rfl
  rw [rows, hfunctions, List.flatMap_singleton, List.forall_mem_cons, List.forall_mem_cons]
  exact ⟨by simpa using hname, by simp, hf.not_mem_rows⟩

/-- Legible modules with the same text are the same. -/
theorem Module.injOn_text : Set.InjOn text {m | m.Legible} := by
  intro m hm n hn h
  obtain ⟨f, hfunctions, hf⟩ := hm.functions
  obtain ⟨g, hfunctions', hg⟩ := hn.functions
  rw [m.text_eq, n.text_eq] at h
  have hrows := unlines_inj hm.not_mem_rows hn.not_mem_rows h
  simp only [rows, hfunctions, hfunctions', List.flatMap_singleton, List.cons.injEq,
    String.append_left_inj, String.append_right_inj, true_and] at hrows
  obtain ⟨name, functions⟩ := m
  obtain ⟨name', functions'⟩ := n
  obtain rfl : name = name' := hrows.1
  obtain rfl : functions = [f] := hfunctions
  obtain rfl : functions' = [g] := hfunctions'
  rw [Function.injOn_rows hf hg hrows.2]

end TinyC.Ir
