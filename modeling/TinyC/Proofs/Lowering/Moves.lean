import TinyC.Lowering.Statement
import TinyC.Proofs.Ir.Calls
import TinyC.Proofs.Program.Scope

/-!
# What lowering does to its state

Lowering is a sequence of moves. A `Move` says what is added to the state and what lowering knows
when it adds it: that the current block takes instructions, that code reads what is there, that a
branch leads to a block. What holds initially and is kept by every move holds of every state that
lowering reaches. To the builder, moves of lowering are moves of its own.
-/

namespace TinyC

open Ir

namespace SymbolTable

theorem lookup?_insert (t : SymbolTable) (name x : String) (symbol : Symbol) :
    (t.insert name symbol).lookup? x = if x = name then some symbol else t.lookup? x := by
  by_cases hx : x = name
  · subst hx
    simp [lookup?, insert]
  · have hne : (x == name) = false := by simpa using hx
    simp [lookup?, insert, List.lookup_cons, hx, hne]

/-- Every variable of a table is one of another table. -/
def Le (t t' : SymbolTable) : Prop :=
  ∀ name symbol, t.lookup? name = some symbol → t'.lookup? name = some symbol

theorem le_insert {t : SymbolTable} {name : String} (h : t.lookup? name = none) (symbol : Symbol) :
    t.Le (t.insert name symbol) := by
  intro x s hx
  rw [lookup?_insert, if_neg, hx]
  rintro rfl
  rw [h] at hx
  cases hx

/-- Of the variables in the table, `x` has the slot `s` and no other one has it. -/
def Owns (t : SymbolTable) (x : String) (s : Slot) : Prop :=
  ∀ name symbol, t.lookup? name = some symbol → (symbol.slot = s ↔ name = x)

theorem Owns.mono {t t' : SymbolTable} {x : String} {s : Slot} (h : t'.Owns x s) (hle : t.Le t') :
    t.Owns x s :=
  fun name symbol hname => h name symbol (hle name symbol hname)

end SymbolTable

namespace Lowering

/-- The current block takes instructions. -/
def Open (σ : Lowering) : Prop := σ.builder.Open

/-- The scope that the variables declared so far make up. -/
def scope (σ : Lowering) : Scope :=
  σ.symbols.entries.map fun entry => (entry.1, entry.2.ty)

theorem lookup_scope (σ : Lowering) (name : String) :
    σ.scope.lookup name = (σ.symbols.lookup? name).map (·.ty) := by
  simp only [scope, SymbolTable.lookup?]
  induction σ.symbols.entries with
  | nil => rfl
  | cons entry entries ih =>
    obtain ⟨key, symbol⟩ := entry
    cases hname : name == key with
    | true => simp [List.lookup_cons, hname]
    | false => simp [List.lookup_cons, hname, ih]

/-- The slot belongs to a variable. -/
def HasSlot (σ : Lowering) (s : Slot) : Prop :=
  ∃ name symbol, σ.symbols.lookup? name = some symbol ∧ symbol.slot = s

/-! ## Changes of the state -/

/-- Add code that computes to the current block. -/
def compute (σ : Lowering) (code : List Instr) : Lowering :=
  { σ with builder := σ.builder.compute code }

/-- Store a value in a slot. -/
def store (σ : Lowering) (v : Value) (slot : Slot) : Lowering :=
  { σ with builder := σ.builder.append [.store v slot] }

/-- Declare a variable with a slot of its own. -/
def declare (σ : Lowering) (name : String) (ty : Ty) : Lowering :=
  { σ with
    builder := σ.builder.allocate name ty.slotTy
    symbols := σ.symbols.insert name ⟨σ.builder.nextSlot name ty.slotTy, ty⟩ }

theorem lookup?_declare (σ : Lowering) (name : String) (ty : Ty) :
    (σ.declare name ty).symbols.lookup? name =
      some ⟨σ.builder.nextSlot name ty.slotTy, ty⟩ := by
  simp [declare, SymbolTable.lookup?_insert]

def addBlock (σ : Lowering) (base : String) : Lowering :=
  { σ with builder := σ.builder.addBlock base }

/-- End the current block. -/
def close (σ : Lowering) (t : Terminator) : Lowering :=
  { σ with builder := σ.builder.close t }

def moveTo (σ : Lowering) (j : Nat) : Lowering :=
  { σ with builder := σ.builder.moveTo j }

/-- What lowering does, one thing at a time. -/
inductive Move : Lowering → Lowering → Prop
  | compute {σ : Lowering} {code : List Instr} : σ.Open →
    Computation σ.HasSlot σ.builder.instrs σ.builder.temporaries code → Move σ (σ.compute code)
  | store {σ : Lowering} {v : Value} {slot : Slot} : σ.Open →
    (Instr.store v slot).Fits σ.HasSlot σ.builder.instrs σ.builder.temporaries →
    Move σ (σ.store v slot)
  | declare {σ : Lowering} {name : String} (ty : Ty) : σ.Open →
    σ.symbols.lookup? name = none → Move σ (σ.declare name ty)
  | addBlock (σ : Lowering) {base : String} : Plain base → Move σ (σ.addBlock base)
  | close {σ : Lowering} {t : Terminator} : σ.Open →
    t.Leaves σ.builder.function.blockNames σ.builder.instrs σ.builder.temporaries →
    Move σ (σ.close t)
  | moveTo (σ : Lowering) (j : Nat) : Move σ (σ.moveTo j)

/-- States reached by moves. -/
abbrev Reach : Lowering → Lowering → Prop := Relation.ReflTransGen Move

theorem Reach.preserves {I : Lowering → Prop} (step : ∀ {σ σ'}, Move σ σ' → I σ → I σ')
    {σ σ' : Lowering} (h : Reach σ σ') (hσ : I σ) : I σ' := by
  induction h with
  | refl => exact hσ
  | tail _ hmove ih => exact step hmove ih

/-! ## What grows -/

/-- To the builder, code that computes is one instruction after another. -/
theorem reach_builder_compute {names : Set String} {slots : Slot → Prop} {before code : List Instr}
    {k : Nat} (h : Computation slots before k code) {b : Builder} (hopen : b.Open)
    (hk : b.temporaries = k) : b.Reach names (b.compute code) := by
  induction h generalizing b with
  | nil => rw [Builder.compute_nil]
  | @cons before k i r code hdest hname _ _ ih =>
    have hnext : r = b.nextReg r.ty := by
      rw [Builder.nextReg, hk, ← hname]
    rw [← List.singleton_append, ← Builder.compute_compute]
    refine .head (.compute hopen (hnext ▸ hdest)) (ih (hopen.compute [i]) ?_)
    rw [← hk]
    rfl

theorem Move.reach_builder {σ σ' : Lowering} (h : Move σ σ') :
    σ.builder.Reach Set.univ σ'.builder := by
  cases h with
  | compute hopen hcode => exact reach_builder_compute hcode hopen rfl
  | store hopen => exact .single (.store _ _ hopen)
  | declare ty hopen => exact .single (.allocate _ hopen (Set.mem_univ _))
  | addBlock => exact .single (.addBlock _ (Set.mem_univ _))
  | close hopen ht => exact .single (.close hopen ht.targets)
  | moveTo => exact .single (.moveTo _ _)

theorem Move.symbols_le {σ σ' : Lowering} (h : Move σ σ') : σ.symbols.Le σ'.symbols := by
  cases h with
  -- A name that is declared was not declared before, so no variable is hidden.
  | declare ty _ hnone => exact SymbolTable.le_insert hnone _
  | _ => exact fun _ _ h => h

theorem Move.stack {σ σ' : Lowering} (h : Move σ σ') : σ'.stack = σ.stack := by
  cases h <;> rfl

theorem Reach.grows {σ σ' : Lowering} (h : Reach σ σ') :
    σ.builder.function.Grows σ'.builder.function := by
  induction h with
  | refl => exact .refl _
  | tail _ hmove ih => exact ih.trans hmove.reach_builder.grows

theorem Reach.symbols_le {σ σ' : Lowering} (h : Reach σ σ') : σ.symbols.Le σ'.symbols := by
  induction h with
  | refl => exact fun _ _ h => h
  | tail _ hmove ih => exact fun x s hx => hmove.symbols_le x s (ih x s hx)

theorem Reach.stack {σ σ' : Lowering} (h : Reach σ σ') : σ'.stack = σ.stack := by
  induction h with
  | refl => rfl
  | tail _ hmove ih => exact hmove.stack.trans ih

theorem HasSlot.mono {σ σ' : Lowering} {s : Slot} (h : σ.HasSlot s)
    (hle : σ.symbols.Le σ'.symbols) : σ'.HasSlot s := by
  obtain ⟨name, symbol, hlookup, hslot⟩ := h
  exact ⟨name, symbol, hle name symbol hlookup, hslot⟩

end Lowering

end TinyC
