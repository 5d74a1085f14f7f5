import TinyC.Proofs.Ir.Typing
import TinyC.Proofs.Numeral.Arithmetic

/-!
# Running functions

A function runs block by block over a memory of 32-bit words, one for each slot, and a file of
registers. An instruction whose operands are missing or of another type than it asks for, and a
primitive that traps, give no result.

`Function.Returns` says what a run ends in, and after how many jumps. It starts from a list of
instructions and a terminator, which need not be a whole block, so that a run can be taken up in the
middle of one.
-/

namespace TinyC.Ir

/-! ## Data -/

/-- What a register holds. -/
inductive Datum
  | int (n : Int32)
  | float (x : Binary32)
  | bool (b : Bool)
deriving DecidableEq, Repr

def Datum.ty : Datum → Ty
  | .int _ => .i32
  | .float _ => .f32
  | .bool _ => .i1

/-- The word that stores a datum. -/
def Datum.word : Datum → BitVec 32
  | .int n => n.toBitVec
  | .float x => x.bits
  | .bool b => if b then 1 else 0

/-- The datum of a type that a word stores. -/
def Ty.read : Ty → BitVec 32 → Datum
  | .i32, w => .int (.ofBitVec w)
  | .f32, w => .float ⟨w⟩
  | .i1, w => .bool (w ≠ 0)

@[simp] theorem Ty.ty_read (ty : Ty) (w : BitVec 32) : (ty.read w).ty = ty := by
  cases ty <;> rfl

@[simp] theorem Datum.read_word (d : Datum) : d.ty.read d.word = d := by
  cases d with
  | int n => rfl
  | float x => rfl
  | bool b => cases b <;> rfl

abbrev Memory := String → BitVec 32

structure State where
  memory : Memory
  registers : String → Option Datum

namespace State

/-- The state in which a function starts: no register has been made. -/
def initial (memory : Memory) : State := ⟨memory, fun _ => none⟩

def define (st : State) (r : Reg) (d : Datum) : State :=
  { st with registers := Function.update st.registers r.name (some d) }

def write (st : State) (s : Slot) (d : Datum) : State :=
  { st with memory := Function.update st.memory s.name d.word }

def read (st : State) (s : Slot) : Datum := s.ty.read (st.memory s.name)

end State

/-- A register is read at its type. -/
def Value.eval (st : State) : Value → Option Datum
  | .int n => some (.int n)
  | .float x => some (.float x)
  | .bool b => some (.bool b)
  | .reg r => (st.registers r.name).filter (·.ty = r.ty)

theorem Value.ty_of_eval {st : State} {v : Value} {d : Datum} (h : v.eval st = some d) :
    d.ty = v.ty := by
  cases v with
  | int n => cases h; rfl
  | float x => cases h; rfl
  | bool b => cases h; rfl
  | reg r => simpa [Value.ty] using (Option.filter_eq_some_iff.mp h).2

theorem Value.eval_define (st : State) (r : Reg) {d : Datum} (h : d.ty = r.ty) :
    (Value.reg r).eval (st.define r d) = some d := by
  simp [Value.eval, State.define, Option.filter, h]

/-! ## Instructions -/

def Opcode.apply (P : Primitives) : Opcode → Datum → Datum → Option Datum
  | .add, .int a, .int b => some (.int (a + b))
  | .sub, .int a, .int b => some (.int (a - b))
  | .mul, .int a, .int b => some (.int (a * b))
  | .sdiv, .int a, .int b => (P.divide a b).map .int
  | .srem, .int a, .int b => (P.remainder a b).map .int
  | .fadd, .float x, .float y => (P.floatAdd x y).map .float
  | .fsub, .float x, .float y => (P.floatSub x y).map .float
  | .fmul, .float x, .float y => (P.floatMul x y).map .float
  | .fdiv, .float x, .float y => (P.floatDiv x y).map .float
  | .frem, .float x, .float y => (P.floatRem x y).map .float
  | .and, .bool a, .bool b => some (.bool (a && b))
  | .or, .bool a, .bool b => some (.bool (a || b))
  | _, _, _ => none

def IntPredicate.holds : IntPredicate → Int32 → Int32 → Bool
  | .eq, a, b => a = b
  | .ne, a, b => a ≠ b
  | .slt, a, b => a < b
  | .sle, a, b => a ≤ b
  | .sgt, a, b => b < a
  | .sge, a, b => b ≤ a

def FloatPredicate.holds : FloatPredicate → Binary32 → Binary32 → Bool
  | .oeq, x, y => x.same y
  | .one, x, y => x.less y || y.less x
  | .olt, x, y => x.less y
  | .ole, x, y => x.less y || x.same y
  | .ogt, x, y => y.less x
  | .oge, x, y => y.less x || x.same y

def IntPredicate.apply (p : IntPredicate) : Datum → Datum → Option Datum
  | .int a, .int b => some (.bool (p.holds a b))
  | _, _ => none

def FloatPredicate.apply (p : FloatPredicate) : Datum → Datum → Option Datum
  | .float x, .float y => some (.bool (p.holds x y))
  | _, _ => none

def CastOp.apply : CastOp → Datum → Option Datum
  | .sitofp, .int n => some (.float (.ofInt n.toInt))
  | .fptosi, .float x => some (.int x.toInt32)
  | .zext, .bool b => some (.int (if b then 1 else 0))
  | .uitofp, .bool b => some (.float (if b then .one else .zero))
  | _, _ => none

/-- A new slot keeps the word that is there. -/
def Instr.exec (P : Primitives) (st : State) : Instr → Option State
  | .alloca _ => some st
  | .load dest src => some (st.define dest (st.read src))
  | .store value dest => do
    let d ← value.eval st
    return st.write dest d
  | .binary dest op lhs rhs => do
    let a ← lhs.eval st
    let b ← rhs.eval st
    return st.define dest (← op.apply P a b)
  | .icmp dest pred lhs rhs => do
    let a ← lhs.eval st
    let b ← rhs.eval st
    return st.define dest (← pred.apply a b)
  | .fcmp dest pred lhs rhs => do
    let a ← lhs.eval st
    let b ← rhs.eval st
    return st.define dest (← pred.apply a b)
  | .cast dest op value => do
    let d ← value.eval st
    return st.define dest (← op.apply d)

namespace Instr

variable {P : Primitives} {st : State} {lhs rhs value : Value} {a b : Datum}

theorem exec_binary (ha : lhs.eval st = some a) (hb : rhs.eval st = some b) (dest : Reg)
    (op : Opcode) : (binary dest op lhs rhs).exec P st = (op.apply P a b).map (st.define dest) := by
  simp only [exec, ha, hb, Option.bind_eq_bind, Option.bind_some, Option.pure_def]
  exact Option.map_eq_bind.symm

theorem exec_icmp (ha : lhs.eval st = some a) (hb : rhs.eval st = some b) (dest : Reg)
    (pred : IntPredicate) :
    (icmp dest pred lhs rhs).exec P st = (pred.apply a b).map (st.define dest) := by
  simp only [exec, ha, hb, Option.bind_eq_bind, Option.bind_some, Option.pure_def]
  exact Option.map_eq_bind.symm

theorem exec_fcmp (ha : lhs.eval st = some a) (hb : rhs.eval st = some b) (dest : Reg)
    (pred : FloatPredicate) :
    (fcmp dest pred lhs rhs).exec P st = (pred.apply a b).map (st.define dest) := by
  simp only [exec, ha, hb, Option.bind_eq_bind, Option.bind_some, Option.pure_def]
  exact Option.map_eq_bind.symm

theorem exec_cast (ha : value.eval st = some a) (dest : Reg) (op : CastOp) :
    (cast dest op value).exec P st = (op.apply a).map (st.define dest) := by
  simp only [exec, ha, Option.bind_eq_bind, Option.bind_some, Option.pure_def]
  exact Option.map_eq_bind.symm

theorem exec_store (ha : value.eval st = some a) (dest : Slot) :
    (store value dest).exec P st = some (st.write dest a) := by
  simp [exec, ha]

end Instr

/-- Run instructions one after the other. -/
def exec (P : Primitives) : List Instr → State → Option State
  | [], st => some st
  | i :: code, st => (i.exec P st).bind (exec P code)

@[simp] theorem exec_singleton (P : Primitives) (i : Instr) (st : State) :
    exec P [i] st = i.exec P st := by
  simp [exec]

theorem exec_append (P : Primitives) (code code' : List Instr) (st : State) :
    exec P (code ++ code') st = (exec P code st).bind (exec P code') := by
  induction code generalizing st with
  | nil => rfl
  | cons i code ih => simp [exec, Option.bind_assoc, ih]

theorem exec_append_of_eq_some {P : Primitives} {code : List Instr} {st st' : State}
    (h : exec P code st = some st') (code' : List Instr) :
    exec P (code ++ code') st = exec P code' st' := by
  rw [exec_append, h]
  rfl

/-! ## Functions -/

/-- The block that control passes to. -/
def Terminator.next? (st : State) : Terminator → Option String
  | .br target => some target
  | .condBr cond thenTarget elseTarget =>
    match cond.eval st with
    | some (.bool b) => some (if b then thenTarget else elseTarget)
    | _ => none
  | .ret _ => none

/-- Where no name is used twice, a block is found by its name. -/
theorem Function.block?_eq_some {f : Function} (h : f.blockNames.Nodup) {j : Nat} {blk : Block}
    (hj : f.blocks[j]? = some blk) : f.block? blk.name = some blk := by
  obtain ⟨pre, post, hblocks⟩ := List.append_of_mem (List.mem_of_getElem? hj)
  have hpre : ∀ b ∈ pre, b.name ≠ blk.name := by
    intro b hb heq
    simp only [blockNames, hblocks, List.map_append, List.map_cons, List.nodup_append] at h
    exact h.2.2 b.name (List.mem_map_of_mem hb) blk.name (by simp) heq
  refine List.find?_eq_some_iff_append.mpr ⟨by simp, pre, post, hblocks, fun b hb => ?_⟩
  simpa using hpre b hb

/-- What a return gives back. -/
structure Ending where
  value : Option Datum
  memory : Memory

/-- From the given instructions and terminator, a function returns after a number of jumps. -/
inductive Function.Returns (P : Primitives) (f : Function) :
    Nat → List Instr → Option Terminator → State → Ending → Prop
  | ret {code st st' value d} : exec P code st = some st' → value.eval st' = some d →
    Returns P f 0 code (some (.ret (some value))) st ⟨some d, st'.memory⟩
  | retVoid {code st st'} : exec P code st = some st' →
    Returns P f 0 code (some (.ret none)) st ⟨none, st'.memory⟩
  | jump {n code t st st' target block o} : exec P code st = some st' →
    t.next? st' = some target → f.block? target = some block →
    Returns P f n block.instrs block.terminator st' o →
    Returns P f (n + 1) code (some t) st o

/-- Run from the first block on, a function ends in a return. -/
def Function.Runs (P : Primitives) (f : Function) (memory : Memory) (o : Ending) : Prop :=
  ∃ entry ∈ f.blocks.head?, ∃ n, f.Returns P n entry.instrs entry.terminator (.initial memory) o

namespace Function.Returns

variable {P : Primitives} {f : Function} {n : Nat} {code code' : List Instr}
  {t : Option Terminator} {st : State} {o : Ending}

/-- A run goes through the instructions in front of it. -/
theorem append_iff : f.Returns P n (code ++ code') t st o ↔
    ∃ st', exec P code st = some st' ∧ f.Returns P n code' t st' o := by
  constructor
  · intro h
    cases h with
    -- However the run ends, it ends behind all of the code, so the front is split off the same way.
    | ret hexec hvalue =>
      rw [exec_append] at hexec
      obtain ⟨st₁, hst₁, hexec⟩ := Option.bind_eq_some_iff.mp hexec
      exact ⟨st₁, hst₁, .ret hexec hvalue⟩
    | retVoid hexec =>
      rw [exec_append] at hexec
      obtain ⟨st₁, hst₁, hexec⟩ := Option.bind_eq_some_iff.mp hexec
      exact ⟨st₁, hst₁, .retVoid hexec⟩
    | jump hexec hnext hblock hrest =>
      rw [exec_append] at hexec
      obtain ⟨st₁, hst₁, hexec⟩ := Option.bind_eq_some_iff.mp hexec
      exact ⟨st₁, hst₁, .jump hexec hnext hblock hrest⟩
  · rintro ⟨st₁, hst₁, h⟩
    have hexec : ∀ {st'}, exec P code' st₁ = some st' → exec P (code ++ code') st = some st' := by
      intro st' h
      rwa [exec_append_of_eq_some hst₁]
    cases h with
    | ret h hvalue => exact .ret (hexec h) hvalue
    | retVoid h => exact .retVoid (hexec h)
    | jump h hnext hblock hrest => exact .jump (hexec h) hnext hblock hrest

/-- A run at a branch goes on at the block it leads to. -/
theorem nil_iff_of_next? {t : Terminator} {target : String} {block : Block}
    (hnext : t.next? st = some target) (hblock : f.block? target = some block) :
    f.Returns P n [] (some t) st o ↔
      ∃ m, n = m + 1 ∧ f.Returns P m block.instrs block.terminator st o := by
  constructor
  · intro h
    cases h with
    -- A terminator that leads to a block is no return.
    | ret => cases hnext
    | retVoid => cases hnext
    | jump hexec hnext' hblock' hrest =>
      cases hexec
      obtain rfl := Option.some.inj (hnext.symm.trans hnext')
      obtain rfl := Option.some.inj (hblock.symm.trans hblock')
      exact ⟨_, rfl, hrest⟩
  · rintro ⟨m, rfl, h⟩
    exact .jump rfl hnext hblock h

theorem ret_int_iff {k : Int32} : f.Returns P n [] (some (.ret (some (.int k)))) st o ↔
    n = 0 ∧ o = ⟨some (.int k), st.memory⟩ := by
  constructor
  · intro h
    cases h with
    | ret hexec hvalue =>
      cases hexec
      cases hvalue
      exact ⟨rfl, rfl⟩
    | jump hexec hnext => cases hnext
  · rintro ⟨rfl, rfl⟩
    exact .ret rfl rfl

end Function.Returns

/-! ## Computations -/

namespace Computation

variable {slots : Slot → Prop} {before code : List Instr} {k : Nat} {P : Primitives}

theorem dest_of_exec {i : Instr} {r : Reg} {st st' : State} (h : i.dest? = some r)
    (hexec : i.exec P st = some st') : ∃ d, st' = st.define r d := by
  cases i with
  | alloca => cases h
  | store => cases h
  | load dest src =>
    cases h
    cases hexec
    exact ⟨_, rfl⟩
  | binary dest _ _ _ | icmp dest _ _ _ | fcmp dest _ _ _ =>
    cases h
    simp only [Instr.exec, Option.bind_eq_bind, Option.bind_eq_some_iff, Option.pure_def,
      Option.some.injEq] at hexec
    obtain ⟨_, _, _, _, d, _, rfl⟩ := hexec
    exact ⟨d, rfl⟩
  | cast dest op value =>
    cases h
    simp only [Instr.exec, Option.bind_eq_bind, Option.bind_eq_some_iff, Option.pure_def,
      Option.some.injEq] at hexec
    obtain ⟨_, _, d, _, rfl⟩ := hexec
    exact ⟨d, rfl⟩

/-- A computation leaves the memory and the registers given out before it as they are. -/
theorem exec_frame (h : Computation slots before k code) {st st' : State}
    (hexec : exec P code st = some st') :
    st'.memory = st.memory ∧ ∀ n ≤ k, st'.registers (regName n) = st.registers (regName n) := by
  induction h generalizing st with
  | nil =>
    cases hexec
    exact ⟨rfl, fun _ _ => rfl⟩
  | @cons before k i r code hdest hname _ _ ih =>
    obtain ⟨st₁, hi, hcode⟩ := Option.bind_eq_some_iff.mp hexec
    obtain ⟨d, rfl⟩ := dest_of_exec hdest hi
    obtain ⟨hmem, hregs⟩ := ih hcode
    refine ⟨hmem, fun n hn => ?_⟩
    -- The instruction makes register `k + 1`, and those at stake have numbers up to `k`.
    have hne : regName n ≠ r.name := by
      rw [hname]
      exact fun h => by
        have := regName_injective h
        omega
    rw [hregs n (by omega)]
    simp [State.define, hne]

/-- A live value keeps its meaning. -/
theorem eval_live (h : Computation slots before k code) {st st' : State}
    (hexec : exec P code st = some st') {v : Value} {before' : List Instr}
    (hv : v.Live before' k) : v.eval st' = v.eval st := by
  cases v with
  | reg r =>
    obtain ⟨-, n, hname, hn⟩ := hv.made r rfl
    simp only [Value.eval, hname, (h.exec_frame hexec).2 n hn]
  | _ => rfl

end Computation

end TinyC.Ir
