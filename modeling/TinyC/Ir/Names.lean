/-!
# Fresh names

A table of the names in use. The first use of a name keeps it as it is; a later one appends a point
and a number, the least above those given out for the name before that is not in use itself.
-/

namespace TinyC.Ir

/-- The names in use, each with the last number appended to it. A later entry for a name counts. -/
structure NameTable where
  entries : List (String × Nat)

/-- A name with a number appended. -/
def suffixed (base : String) (n : Nat) : String := base ++ "." ++ toString n

/-- The least number from `n` on whose name is not in use. A name that is in use is struck from the
list, which only bounds the search: it is not tried again. -/
def freshSuffix (names : List String) (base : String) (n : Nat) : Nat :=
  if _h : suffixed base n ∈ names then freshSuffix (names.erase (suffixed base n)) base (n + 1)
  else n
termination_by names.length
decreasing_by
  rw [List.length_erase_of_mem _h]
  have := List.length_pos_of_mem _h
  omega

namespace NameTable

def empty : NameTable := ⟨[]⟩

def names (t : NameTable) : List String := t.entries.map Prod.fst

/-- The last number appended to a name, if the name is in use. -/
def last? (t : NameTable) (name : String) : Option Nat := t.entries.lookup name

def insert (t : NameTable) (name : String) (n : Nat) : NameTable := ⟨(name, n) :: t.entries⟩

/-- Give out a name that is not in use, made from `base`. -/
def fresh (t : NameTable) (base : String) : String × NameTable :=
  match t.last? base with
  | none => (base, t.insert base 0)
  | some n =>
    let k := freshSuffix t.names base (n + 1)
    (suffixed base k, (t.insert base k).insert (suffixed base k) 0)

end NameTable

end TinyC.Ir
