import TinyC.Proofs.Ir.Builder
import TinyC.Proofs.Numeral.Widening

/-!
# Well-typed functions

What an instruction reads and makes, the types it asks for, and when a whole function is well
typed: every instruction and terminator is, and every register and slot is used with the type it
was made with.

`Computation` is the same for a piece of straight-line code that a builder adds to a block: every
instruction takes up the next register and reads only registers that the block has made before.
-/

namespace TinyC.Ir

/-! ## What instructions read and make -/

namespace Instr

/-- The register that an instruction puts its result into. -/
def dest? : Instr → Option Reg
  | .alloca _ | .store _ _ => none
  | .load dest _ | .binary dest _ _ _ | .icmp dest _ _ _ | .fcmp dest _ _ _ | .cast dest _ _ =>
    some dest

/-- The values that an instruction reads. -/
def operands : Instr → List Value
  | .alloca _ | .load _ _ => []
  | .store value _ | .cast _ _ value => [value]
  | .binary _ _ lhs rhs | .icmp _ _ lhs rhs | .fcmp _ _ lhs rhs => [lhs, rhs]

/-- The slot that an instruction loads from or stores to. -/
def slot? : Instr → Option Slot
  | .load _ slot | .store _ slot => some slot
  | _ => none

/-- The slot that an instruction makes. -/
def made? : Instr → Option Slot
  | .alloca slot => some slot
  | _ => none

theorem made?_eq_none {i : Instr} {r : Reg} (h : i.dest? = some r) : i.made? = none := by
  cases i with
  | alloca slot => cases h
  | _ => rfl

end Instr

/-- The code loads from the slot or stores to it. -/
def Uses (s : Slot) (code : List Instr) : Prop := ∃ i ∈ code, i.slot? = some s

@[simp] theorem uses_nil (s : Slot) : ¬Uses s [] := by
  simp [Uses]

@[simp] theorem uses_singleton {s : Slot} {i : Instr} : Uses s [i] ↔ i.slot? = some s := by
  simp [Uses]

@[simp] theorem uses_append {s : Slot} {code code' : List Instr} :
    Uses s (code ++ code') ↔ Uses s code ∨ Uses s code' := by
  simp [Uses, or_and_right, exists_or]

/-- The values that a terminator reads. -/
def Terminator.operands : Terminator → List Value
  | .br _ => []
  | .condBr cond _ _ => [cond]
  | .ret value => value.toList

/-- What a block that returns gives back. -/
def Block.returned? (b : Block) : Option (Option Value) :=
  match b.terminator with
  | some (.ret value) => some value
  | _ => none

theorem Block.returned?_eq_none {b : Block} (h : ∀ value, b.terminator ≠ some (.ret value)) :
    b.returned? = none := by
  unfold Block.returned?
  split
  · exact absurd ‹_› (h _)
  · rfl

/-! ## Types -/

/-- The type of both operands and of the result. -/
def Opcode.ty : Opcode → Ty
  | .add | .sub | .mul | .sdiv | .srem => .i32
  | .fadd | .fsub | .fmul | .fdiv | .frem => .f32
  | .and | .or => .i1

def CastOp.source : CastOp → Ty
  | .sitofp => .i32
  | .fptosi => .f32
  | .zext | .uitofp => .i1

def CastOp.target : CastOp → Ty
  | .sitofp | .uitofp => .f32
  | .fptosi | .zext => .i32

def Instr.WellTyped : Instr → Prop
  | .alloca _ => True
  | .load dest src => dest.ty = src.ty
  | .store value dest => value.ty = dest.ty
  | .binary dest op lhs rhs => dest.ty = op.ty ∧ lhs.ty = op.ty ∧ rhs.ty = op.ty
  | .icmp dest _ lhs rhs => dest.ty = .i1 ∧ lhs.ty = .i32 ∧ rhs.ty = .i32
  | .fcmp dest _ lhs rhs => dest.ty = .i1 ∧ lhs.ty = .f32 ∧ rhs.ty = .f32
  | .cast dest op value => value.ty = op.source ∧ dest.ty = op.target

/-- A conditional branch tests a truth value, and a return gives back a value of type `ret`. -/
def Terminator.WellTyped (ret : Ty) : Terminator → Prop
  | .br _ => True
  | .condBr cond _ _ => cond.ty = .i1
  | .ret value => ∃ v, value = some v ∧ v.ty = ret

namespace Function

def defined (f : Function) : List Reg := f.instructions.filterMap Instr.dest?

def slots (f : Function) : List Slot := f.instructions.filterMap Instr.made?

/-- The names of all blocks and slots. -/
def usedNames (f : Function) : List String := f.blockNames ++ f.slots.map Slot.name

/-- The values that the returns of a function give back, in the order of its blocks. -/
def returned (f : Function) : List (Option Value) := f.blocks.filterMap Block.returned?

/-- A value is a constant, or a register that some instruction makes with this type, and none with
another one. -/
def Provides (f : Function) (v : Value) : Prop :=
  ∀ r, v = .reg r → r ∈ f.defined ∧ ∀ r' ∈ f.defined, r'.name = r.name → r' = r

structure WellTyped (f : Function) : Prop where
  instrs : ∀ i ∈ f.instructions, i.WellTyped
  terminators : ∀ b ∈ f.blocks, ∀ t ∈ b.terminator, t.WellTyped f.ret
  returned : ∃ v, f.returned = [some v] ∧ v.ty = .i32
  operands : ∀ i ∈ f.instructions, ∀ v ∈ i.operands, f.Provides v
  tested : ∀ b ∈ f.blocks, ∀ t ∈ b.terminator, ∀ v ∈ t.operands, f.Provides v
  slots : ∀ i ∈ f.instructions, ∀ s ∈ i.slot?,
    s ∈ f.slots ∧ ∀ s' ∈ f.slots, s'.name = s.name → s' = s

end Function

namespace Builder

theorem Open.slots_append {b : Builder} (h : b.Open) (code : List Instr) :
    (b.append code).function.slots.Perm (b.function.slots ++ code.filterMap Instr.made?) := by
  unfold Function.slots
  rw [← List.filterMap_append]
  exact (h.instructions_append code).filterMap Instr.made?

theorem Open.defined_append {b : Builder} (h : b.Open) (code : List Instr) :
    (b.append code).function.defined.Perm (b.function.defined ++ code.filterMap Instr.dest?) := by
  unfold Function.defined
  rw [← List.filterMap_append]
  exact (h.instructions_append code).filterMap Instr.dest?

theorem Open.slots_close {b : Builder} (h : b.Open) (t : Terminator) :
    (b.close t).function.slots = b.function.slots :=
  congrArg (List.filterMap Instr.made?) (h.instructions_close t)

theorem Open.defined_close {b : Builder} (h : b.Open) (t : Terminator) :
    (b.close t).function.defined = b.function.defined :=
  congrArg (List.filterMap Instr.dest?) (h.instructions_close t)

theorem Open.usedNames_append {b : Builder} (h : b.Open) (code : List Instr) :
    (b.append code).function.usedNames.Perm
      (b.function.usedNames ++ (code.filterMap Instr.made?).map Slot.name) := by
  unfold Function.usedNames
  rw [blockNames_append, List.append_assoc, ← List.map_append]
  exact ((h.slots_append code).map _).append_left _

theorem Open.usedNames_close {b : Builder} (h : b.Open) (t : Terminator) :
    (b.close t).function.usedNames = b.function.usedNames := by
  unfold Function.usedNames
  rw [blockNames_close, h.slots_close t]

theorem usedNames_addBlock (b : Builder) (base : String) :
    (b.addBlock base).function.usedNames.Perm
      ((b.names.fresh base).1 :: b.function.usedNames) := by
  unfold Function.usedNames Function.slots
  rw [blockNames_addBlock, instructions_addBlock, List.append_assoc]
  exact List.perm_middle

end Builder

/-! ## Straight-line code -/

/-- A quiet constant, or a register that an instruction of `before` makes and whose number is at
most `k`. -/
structure Value.Live (before : List Instr) (k : Nat) (v : Value) : Prop where
  made : ∀ r, v = .reg r → (∃ i ∈ before, i.dest? = some r) ∧ ∃ n, r.name = regName n ∧ n ≤ k
  quiet : ∀ x, v = .float x → x.Quiet

namespace Value.Live

variable {before : List Instr} {k : Nat}

theorem int (n : Int32) : (Value.int n).Live before k := ⟨nofun, nofun⟩

theorem float {x : Binary32} (h : x.Quiet) : (Value.float x).Live before k := by
  refine ⟨nofun, ?_⟩
  rintro _ ⟨⟩
  exact h

theorem bool (b : Bool) : (Value.bool b).Live before k := ⟨nofun, nofun⟩

theorem reg {r : Reg} {i : Instr} {n : Nat} (hi : i ∈ before) (hdest : i.dest? = some r)
    (hname : r.name = regName n) (hn : n ≤ k) : (Value.reg r).Live before k := by
  refine ⟨?_, nofun⟩
  rintro _ ⟨⟩
  exact ⟨⟨i, hi, hdest⟩, n, hname, hn⟩

theorem mono {v : Value} (h : v.Live before k) (code : List Instr) {n : Nat} (hn : k ≤ n) :
    v.Live (before ++ code) n := by
  refine ⟨fun r hr => ?_, h.quiet⟩
  obtain ⟨⟨i, hi, hdest⟩, m, hname, hm⟩ := h.made r hr
  exact ⟨⟨i, List.mem_append_left _ hi, hdest⟩, m, hname, hm.trans hn⟩

end Value.Live

/-- An instruction is well typed and reads what is there: registers that `before` makes, and slots
that `slots` allows. -/
structure Instr.Fits (slots : Slot → Prop) (before : List Instr) (k : Nat) (i : Instr) : Prop where
  typed : i.WellTyped
  operands : ∀ v ∈ i.operands, v.Live before k
  slot : ∀ s ∈ i.slot?, slots s

theorem Instr.Fits.mono {slots slots' : Slot → Prop} {before : List Instr} {k n : Nat} {i : Instr}
    (h : i.Fits slots before k) (hslots : ∀ s, slots s → slots' s) (hn : k ≤ n) :
    i.Fits slots' before n where
  typed := h.typed
  operands v hv := by simpa using (h.operands v hv).mono [] hn
  slot s hs := hslots s (h.slot s hs)

/-- A terminator passes control on, to blocks of the given names and on a truth value at hand. -/
structure Terminator.Leaves (names : List String) (before : List Instr) (k : Nat)
    (t : Terminator) : Prop where
  targets : t.targets ⊆ names
  typed : ∀ ret, t.WellTyped ret
  operands : ∀ v ∈ t.operands, v.Live before k
  not_ret : ∀ value, t ≠ .ret value

namespace Terminator.Leaves

variable {names : List String} {before : List Instr} {k : Nat}

theorem br {target : String} (h : target ∈ names) :
    (Terminator.br target).Leaves names before k where
  targets := by simpa [Terminator.targets] using h
  typed _ := trivial
  operands := by simp [Terminator.operands]
  not_ret := nofun

theorem condBr {v : Value} {thenTarget elseTarget : String} (hv : v.Live before k)
    (hty : v.ty = .i1) (hthen : thenTarget ∈ names) (helse : elseTarget ∈ names) :
    (Terminator.condBr v thenTarget elseTarget).Leaves names before k where
  targets := by simpa [Terminator.targets] using ⟨hthen, helse⟩
  typed _ := hty
  operands := by simpa [Terminator.operands] using hv
  not_ret := nofun

theorem mono {t : Terminator} (h : t.Leaves names before k) {names' : List String} {n : Nat}
    (hnames : names ⊆ names') (hn : k ≤ n) : t.Leaves names' before n where
  targets := List.Subset.trans h.targets hnames
  typed := h.typed
  operands v hv := by simpa using (h.operands v hv).mono [] hn
  not_ret := h.not_ret

end Terminator.Leaves

/-- A block under construction: its instructions read only what the ones before them make. -/
structure Block.Sound (slots : Slot → Prop) (names : List String) (k : Nat) (b : Block) :
    Prop where
  instrs : ∀ (j : Nat) (i : Instr), b.instrs[j]? = some i → i.Fits slots (b.instrs.take j) k
  terminator : ∀ t ∈ b.terminator, t.Leaves names b.instrs k

namespace Block.Sound

variable {slots : Slot → Prop} {names : List String} {k : Nat} {b : Block}

theorem mono (h : b.Sound slots names k) {slots' : Slot → Prop} {names' : List String} {n : Nat}
    (hslots : ∀ s, slots s → slots' s) (hnames : names ⊆ names') (hn : k ≤ n) :
    b.Sound slots' names' n where
  instrs j i hi := (h.instrs j i hi).mono hslots hn
  terminator t ht := (h.terminator t ht).mono hnames hn

theorem append (h : b.Sound slots names k) (hopen : b.terminator = none) {code : List Instr}
    {slots' : Slot → Prop} {n : Nat} (hslots : ∀ s, slots s → slots' s) (hn : k ≤ n)
    (hcode : ∀ (j : Nat) (i : Instr), code[j]? = some i →
      i.Fits slots' (b.instrs ++ code.take j) n) :
    Block.Sound slots' names n { b with instrs := b.instrs ++ code } where
  instrs j i hi := by
    rw [List.take_append]
    -- An instruction of the block reads what it did before, and a new one may read the whole block.
    rcases Nat.lt_or_ge j b.instrs.length with hj | hj
    · rw [List.getElem?_append_left hj] at hi
      have htake : code.take (j - b.instrs.length) = [] := by
        rw [Nat.sub_eq_zero_of_le hj.le, List.take_zero]
      rw [htake, List.append_nil]
      exact (h.instrs j i hi).mono hslots hn
    · rw [List.getElem?_append_right hj] at hi
      rw [List.take_of_length_le hj]
      exact hcode _ i hi
  terminator t ht := by
    rw [hopen] at ht
    cases ht

end Block.Sound

/-- All blocks of a function under construction are sound. -/
def Builder.Sound (slots : Slot → Prop) (b : Builder) (k : Nat) : Prop :=
  ∀ blk ∈ b.function.blocks, blk.Sound slots b.function.blockNames k

namespace Builder.Sound

variable {slots slots' : Slot → Prop} {b : Builder} {k n : Nat}

theorem append (h : b.Sound slots k) (hb : b.Open) (hslots : ∀ s, slots s → slots' s) (hn : k ≤ n)
    {code : List Instr} (hcode : ∀ (j : Nat) (i : Instr), code[j]? = some i →
      i.Fits slots' (b.instrs ++ code.take j) n) : (b.append code).Sound slots' n := by
  obtain ⟨i, cur, hat, hcur⟩ := hb
  intro blk hblk
  rw [blockNames_append]
  rw [hat.instrs] at hcode
  -- The current block is open, and the others do not change.
  rcases hat.mem_modifyCurrent hblk with rfl | hblk
  · exact (h cur (List.mem_of_getElem? hat.block)).append hcur hslots hn hcode
  · exact (h blk hblk).mono hslots (List.Subset.refl _) hn

theorem append_singleton (h : b.Sound slots k) (hb : b.Open) (hslots : ∀ s, slots s → slots' s)
    {i : Instr} (hi : i.Fits slots' b.instrs k) : (b.append [i]).Sound slots' k := by
  refine h.append hb hslots (Nat.le_refl k) fun j i' hi' => ?_
  cases j with
  | zero =>
    cases hi'
    simpa using hi
  | succ j => simp at hi'

theorem close (h : b.Sound slots k) (hb : b.Open) {t : Terminator}
    (ht : t.Leaves b.function.blockNames b.instrs k) : (b.close t).Sound slots k := by
  obtain ⟨i, cur, hat, -⟩ := hb
  intro blk hblk
  rw [blockNames_close]
  rw [hat.instrs] at ht
  rcases hat.mem_modifyCurrent hblk with rfl | hblk
  · refine ⟨(h cur (List.mem_of_getElem? hat.block)).instrs, ?_⟩
    rintro _ ⟨⟩
    exact ht
  · exact h blk hblk

theorem addBlock (h : b.Sound slots k) (base : String) : (b.addBlock base).Sound slots k := by
  intro blk hblk
  rw [blockNames_addBlock]
  rcases List.mem_append.mp hblk with hblk | hblk
  · exact (h blk hblk).mono (fun _ hs => hs) (List.subset_append_left _ _) (Nat.le_refl k)
  · rw [List.mem_singleton.mp hblk]
    exact ⟨by simp, by simp⟩

end Builder.Sound

/-- Code that computes: each instruction puts a result into the next register. `before` is what
the block holds already and `k` the number of registers given out. -/
inductive Computation (slots : Slot → Prop) : List Instr → Nat → List Instr → Prop
  | nil {before k} : Computation slots before k []
  | cons {before k i r code} :
    i.dest? = some r → r.name = regName (k + 1) → i.Fits slots before k →
    Computation slots (before ++ [i]) (k + 1) code → Computation slots before k (i :: code)

namespace Computation

variable {slots : Slot → Prop} {before code : List Instr} {k : Nat}

theorem single {i : Instr} {r : Reg} (hdest : i.dest? = some r) (hname : r.name = regName (k + 1))
    (hfits : i.Fits slots before k) : Computation slots before k [i] :=
  .cons hdest hname hfits .nil

theorem append {code' : List Instr} (h : Computation slots before k code)
    (h' : Computation slots (before ++ code) (k + code.length) code') :
    Computation slots before k (code ++ code') := by
  induction h with
  | nil => simpa using h'
  | cons hdest hname hfits _ ih =>
    refine .cons hdest hname hfits (ih ?_)
    -- The first instruction belongs to what is there, and has taken up a register.
    simpa [Nat.add_assoc, Nat.add_comm 1] using h'

/-- The registers made are those with the next numbers, in order. -/
theorem defined (h : Computation slots before k code) :
    (code.filterMap Instr.dest?).map Reg.name =
      (List.range' (k + 1) code.length).map regName := by
  induction h with
  | nil => rfl
  | cons hdest hname _ _ ih => simp [hdest, hname, List.range'_succ, ih]

theorem made (h : Computation slots before k code) : code.filterMap Instr.made? = [] := by
  induction h with
  | nil => rfl
  | cons hdest _ _ _ ih => simp [Instr.made?_eq_none hdest, ih]

theorem fits (h : Computation slots before k code) {j : Nat} {i : Instr}
    (hi : code[j]? = some i) : i.Fits slots (before ++ code.take j) (k + j) := by
  induction h generalizing j with
  | nil => simp at hi
  | cons hdest hname hfits _ ih =>
    cases j with
    | zero =>
      cases hi
      simpa using hfits
    | succ j => simpa [Nat.add_assoc, Nat.add_comm 1] using ih hi

end Computation

end TinyC.Ir
