import TinyC.Proofs.Ir.Names

/-!
# Numbers given out in order

The number behind a fresh name depends on all names in use, because a name that is asked for may
look as if it had a number already. As long as no such name is asked for, every base is numbered on
its own: the names made from it are those with the numbers up to the last one. Then a fresh name
depends on its base and on that number only.
-/

namespace TinyC.Ir

/-! ## Names with a number -/

theorem point_not_mem_number (n : Nat) : '.' ∉ Nat.toDigits 10 n := by
  intro h
  exact absurd (Nat.isDigit_of_mem_toDigits (by decide) (by decide) h) (by decide)

theorem toList_suffixed (base : String) (n : Nat) :
    (suffixed base n).toList = base.toList ++ '.' :: Nat.toDigits 10 n := by
  simp [suffixed, String.toList_append]

/-- A point in front of digits is not one of the digits. -/
theorem eq_nil_of_number_eq_append {l : List Char} {n n' : Nat}
    (h : '.' :: Nat.toDigits 10 n = l ++ '.' :: Nat.toDigits 10 n') : l = [] := by
  cases l with
  | nil => rfl
  | cons c l =>
    rw [List.cons_append, List.cons.injEq] at h
    refine absurd ?_ (point_not_mem_number n)
    rw [h.2]
    simp

/-- The last point separates a base from its number. -/
theorem suffixed_inj {base base' : String} {n n' : Nat} :
    suffixed base n = suffixed base' n' ↔ base = base' ∧ n = n' := by
  constructor
  · intro h
    have hlist := congrArg String.toList h
    rw [toList_suffixed, toList_suffixed] at hlist
    have hbase : base.toList = base'.toList := by
      -- One base goes on where the other one ends, and nothing comes in between.
      rcases List.append_eq_append_iff.mp hlist with ⟨l, hl, htail⟩ | ⟨l, hl, htail⟩
      · rw [hl, eq_nil_of_number_eq_append htail, List.append_nil]
      · rw [hl, eq_nil_of_number_eq_append htail, List.append_nil]
    obtain rfl := String.toList_inj.mp hbase
    exact ⟨rfl, suffixed_injective base h⟩
  · rintro ⟨rfl, rfl⟩
    rfl

/-- The name is not made by appending a number to another one. -/
def Unnumbered (name : String) : Prop := ∀ base n, name ≠ suffixed base n

/-- There is no point in the name. -/
def Undotted (name : String) : Prop := '.' ∉ name.toList

instance (name : String) : Decidable (Undotted name) :=
  inferInstanceAs (Decidable ('.' ∉ name.toList))

theorem Undotted.unnumbered {name : String} (h : Undotted name) : Unnumbered name := by
  rintro base n rfl
  refine h ?_
  rw [toList_suffixed]
  simp

theorem unnumbered_of_getLast? {name : String} {c : Char} (h : name.toList.getLast? = some c)
    (hc : c.isDigit = false) : Unnumbered name := by
  rintro base n rfl
  rw [toList_suffixed, List.getLast?_append] at h
  have hmem : c ∈ Nat.toDigits 10 n := by
    cases hdigits : Nat.toDigits 10 n with
    | nil => exact absurd hdigits Nat.toDigits_ne_nil
    | cons d ds =>
      rw [hdigits, List.getLast?_cons_cons] at h
      exact List.mem_of_getLast? (by simpa using h)
  rw [Nat.isDigit_of_mem_toDigits (by decide) (by decide) hmem] at hc
  cases hc

/-! ## Tidy tables -/

/-- The name that is made from a base, by the last number it was given. -/
def nextName (base : String) : Option Nat → String
  | none => base
  | some n => suffixed base (n + 1)

/-- The number given with it. A name without a number counts as having zero. -/
def nextNumber : Option Nat → Nat
  | none => 0
  | some n => n + 1

namespace NameTable

theorem last?_insert (t : NameTable) (name x : String) (n : Nat) :
    (t.insert name n).last? x = if x = name then some n else t.last? x := by
  by_cases hx : x = name
  · subst hx
    simp [last?, insert]
  · have hne : (x == name) = false := by simpa using hx
    simp [last?, insert, List.lookup_cons, hx, hne]

/-- Every number in use is that of a base in use, and not above the last one. -/
def Tidy (t : NameTable) : Prop :=
  ∀ base n, suffixed base n ∈ t.names → ∃ m, t.last? base = some m ∧ n ≤ m

namespace Tidy

variable {t : NameTable} {base : String} {n : Nat}

theorem empty : Tidy .empty := fun _ _ h => absurd h List.not_mem_nil

/-- The number after the last one is free. -/
theorem suffixed_succ_not_mem (h : t.Tidy) (hlast : t.last? base = some n) :
    suffixed base (n + 1) ∉ t.names := by
  intro hmem
  obtain ⟨m, hm, hle⟩ := h base (n + 1) hmem
  rw [hlast, Option.some.injEq] at hm
  omega

theorem freshSuffix_eq (h : t.Tidy) (hlast : t.last? base = some n) :
    freshSuffix t.names base (n + 1) = n + 1 := by
  rw [freshSuffix, dif_neg (h.suffixed_succ_not_mem hlast)]

/-- A fresh name depends on the last number of its base only. -/
theorem fresh_eq (h : t.Tidy) (base : String) :
    (t.fresh base).1 = nextName base (t.last? base) := by
  cases hlast : t.last? base with
  | none => simp only [fresh, hlast, nextName]
  | some n => simp only [fresh, hlast, nextName, h.freshSuffix_eq hlast]

/-- Giving out a name counts for its base, and for no other. -/
theorem last?_fresh (h : t.Tidy) (base : String) {x : String} (hx : Unnumbered x) :
    (t.fresh base).2.last? x =
      if x = base then some (nextNumber (t.last? base)) else t.last? x := by
  cases hlast : t.last? base with
  | none => simp only [fresh, hlast, last?_insert, nextNumber]
  | some n =>
    simp only [fresh, hlast, h.freshSuffix_eq hlast, last?_insert, if_neg (hx _ _), nextNumber]

theorem fresh (h : t.Tidy) (hbase : Unnumbered base) : (t.fresh base).2.Tidy := by
  intro c k hmem
  cases hlast : t.last? base with
  | none =>
    simp only [NameTable.fresh, hlast, names_insert, List.mem_cons] at hmem ⊢
    obtain ⟨m, hm, hle⟩ := h c k (hmem.resolve_left fun heq => hbase c k heq.symm)
    refine ⟨m, ?_, hle⟩
    rw [last?_insert, if_neg, hm]
    rintro rfl
    rw [hlast] at hm
    cases hm
  | some n =>
    simp only [NameTable.fresh, hlast, h.freshSuffix_eq hlast, names_insert, List.mem_cons]
      at hmem ⊢
    rcases hmem with heq | heq | hmem
    · obtain ⟨rfl, rfl⟩ := suffixed_inj.mp heq
      exact ⟨n + 1, by simp [last?_insert, hbase c (n + 1)], Nat.le_refl _⟩
    · exact absurd heq.symm (hbase c k)
    · obtain ⟨m, hm, hle⟩ := h c k hmem
      -- The new name was not in use, so it is not the base of a number in use.
      have hne : c ≠ suffixed base (n + 1) := by
        rintro rfl
        exact h.suffixed_succ_not_mem hlast (by_contra fun hnot => by
          rw [last?_eq_none_iff.mpr hnot] at hm
          cases hm)
      rw [last?_insert, if_neg hne, last?_insert]
      by_cases hc : c = base
      · subst hc
        rw [hlast, Option.some.injEq] at hm
        exact ⟨n + 1, by simp, by omega⟩
      · exact ⟨m, by rw [if_neg hc, hm], hle⟩

end Tidy

end NameTable

end TinyC.Ir
