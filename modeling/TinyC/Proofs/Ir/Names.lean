import Mathlib
import TinyC.Ir.Names

/-!
# Fresh names are new

A name that the table gives out was not in use, is in use from then on, and no name ever goes out
of use. Numbers are appended injectively, so a search that strikes the names it has tried skips
none that is in use. What is made from a plain name is plain, and so is never the name of a
register and has no blank in it.
-/

namespace TinyC.Ir

theorem suffixed_injective (base : String) : Function.Injective (suffixed base) := by
  intro m n h
  simp only [suffixed, String.append_right_inj] at h
  exact Nat.repr_injective h

/-! ## The search for a number -/

theorem le_freshSuffix (names : List String) (base : String) (n : Nat) :
    n ≤ freshSuffix names base n := by
  fun_induction freshSuffix names base n with
  -- Every name that is struck makes the search go on at the next number.
  | case1 names n _ ih => omega
  | case2 names n _ => exact Nat.le_refl n

theorem suffixed_freshSuffix_not_mem (names : List String) (base : String) (n : Nat) :
    suffixed base (freshSuffix names base n) ∉ names := by
  fun_induction freshSuffix names base n with
  | case1 names n _ ih =>
    -- The struck name has a smaller number than the one found, so it is not the one found.
    have hle := le_freshSuffix (names.erase (suffixed base n)) base (n + 1)
    have hne : suffixed base (freshSuffix (names.erase (suffixed base n)) base (n + 1)) ≠
        suffixed base n := fun h => by
      have := suffixed_injective base h
      omega
    exact fun hmem => ih ((List.mem_erase_of_ne hne).mpr hmem)
  | case2 names n h => exact h

/-! ## Plain names -/

/-- There is no blank in the text. -/
def Unbroken (s : String) : Prop := ∀ c ∈ s.toList, c.isWhitespace = false

instance (s : String) : Decidable (Unbroken s) :=
  decidable_of_iff (s.toList.all (fun c => !c.isWhitespace) = true) (by simp [Unbroken])

@[simp] theorem unbroken_append {a b : String} : Unbroken (a ++ b) ↔ Unbroken a ∧ Unbroken b := by
  simp [Unbroken, or_imp, forall_and]

/-- There are four blanks, so a class of characters without them has no blank. -/
theorem isWhitespace_eq_false {p : Char → Bool}
    (hp : p ' ' = false ∧ p '\t' = false ∧ p '\r' = false ∧ p '\n' = false) {c : Char}
    (h : p c = true) : c.isWhitespace = false := by
  by_contra hblank
  simp only [Char.isWhitespace, Bool.not_eq_false, Bool.or_eq_true, decide_eq_true_eq] at hblank
  rcases hblank with ((rfl | rfl) | rfl) | rfl
  all_goals simp [hp] at h

theorem unbroken_number (n : Nat) : Unbroken (toString n) := by
  intro c hc
  have hmem : c ∈ Nat.toDigits 10 n := by simpa using hc
  have hdigit := Nat.isDigit_of_mem_toDigits (by decide) (by decide) hmem
  exact isWhitespace_eq_false (by decide) hdigit

/-- The name starts with something other than a point, and there is no blank in it. -/
structure Plain (name : String) : Prop where
  head : name.toList.head?.any (· ≠ '.') = true
  unbroken : Unbroken name

instance (name : String) : Decidable (Plain name) :=
  decidable_of_iff (name.toList.head?.any (· ≠ '.') = true ∧ Unbroken name)
    ⟨fun h => ⟨h.1, h.2⟩, fun h => ⟨h.head, h.unbroken⟩⟩

theorem Plain.append {name tail : String} (h : Plain name) (htail : Unbroken tail) :
    Plain (name ++ tail) := by
  refine ⟨?_, unbroken_append.mpr ⟨h.unbroken, htail⟩⟩
  have hhead := h.head
  rw [String.toList_append]
  cases hname : name.toList with
  | nil => simp [hname] at hhead
  | cons c cs => simpa [hname] using hhead

/-! ## The table -/

namespace NameTable

@[simp] theorem names_insert (t : NameTable) (name : String) (n : Nat) :
    (t.insert name n).names = name :: t.names := rfl

theorem last?_eq_none_iff {t : NameTable} {name : String} :
    t.last? name = none ↔ name ∉ t.names := by
  simp only [last?, names, List.lookup_eq_none_iff, List.mem_map, Prod.exists, bne_iff_ne,
    Prod.forall]
  constructor
  · rintro h ⟨_, n, hmem, rfl⟩
    exact h _ n hmem rfl
  · rintro h a n hmem rfl
    exact h ⟨_, n, hmem, rfl⟩

theorem fresh_not_mem (t : NameTable) (base : String) : (t.fresh base).1 ∉ t.names := by
  cases h : t.last? base with
  | none =>
    -- A base that is not in use is given out as it is.
    simp only [fresh, h]
    exact last?_eq_none_iff.mp h
  | some n =>
    simp only [fresh, h]
    exact suffixed_freshSuffix_not_mem t.names base (n + 1)

theorem mem_names_fresh (t : NameTable) (base : String) :
    (t.fresh base).1 ∈ (t.fresh base).2.names := by
  cases h : t.last? base with
  | none => simp [fresh, h]
  | some n => simp [fresh, h]

theorem names_subset_fresh (t : NameTable) (base : String) :
    t.names ⊆ (t.fresh base).2.names := by
  intro name hname
  cases h : t.last? base with
  | none => simp [fresh, h, hname]
  | some n => simp [fresh, h, hname]

theorem plain_fresh (t : NameTable) {base : String} (h : Plain base) : Plain (t.fresh base).1 := by
  cases hlast : t.last? base with
  | none => simpa [fresh, hlast] using h
  | some n =>
    simp only [fresh, hlast, suffixed]
    exact (h.append (by decide)).append (unbroken_number _)

end NameTable

end TinyC.Ir
