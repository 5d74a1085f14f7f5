import TinyC.Ir.Basic
import TinyC.Program

/-!
# Symbols

The variables of a function. There is one flat table: no nested scopes and no shadowing.
-/

namespace TinyC

/-- A variable: its stack slot and its type. -/
structure Symbol where
  slot : Ir.Slot
  ty : Ty
deriving DecidableEq, Repr

structure SymbolTable where
  entries : List (String × Symbol)
deriving DecidableEq, Repr

namespace SymbolTable

def empty : SymbolTable := ⟨[]⟩

def lookup? (t : SymbolTable) (name : String) : Option Symbol := t.entries.lookup name

def contains (t : SymbolTable) (name : String) : Bool := (t.lookup? name).isSome

def size (t : SymbolTable) : Nat := t.entries.length

def isEmpty (t : SymbolTable) : Bool := t.entries.isEmpty

def insert (t : SymbolTable) (name : String) (symbol : Symbol) : SymbolTable :=
  ⟨(name, symbol) :: t.entries⟩

/-- Declare a variable; if the name is taken, the error is the variable that has it. -/
def declare (t : SymbolTable) (name : String) (symbol : Symbol) : Except Symbol SymbolTable :=
  match t.lookup? name with
  | some existing => .error existing
  | none => .ok (t.insert name symbol)

end SymbolTable

end TinyC
