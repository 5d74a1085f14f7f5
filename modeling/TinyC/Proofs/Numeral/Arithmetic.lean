import TinyC.Proofs.Numeral.Fields

/-!
# Arithmetic of programs that run

Integers wrap and are compared as signed numbers, which needs no definition. `Primitives` holds the
operations that are left to the machine, any of which may trap. Conversions are those that constants
are folded with.

Floats are compared by their patterns: below the sign bit patterns are ordered as the numbers they
stand for, so a signed pattern, its `rank`, decides every comparison. The comparisons are ordered
ones: none holds of what is not a number.
-/

namespace TinyC

/-- The operations that a machine provides. One that gives nothing traps. -/
structure Primitives where
  divide : Int32 → Int32 → Option Int32
  remainder : Int32 → Int32 → Option Int32
  floatAdd : Binary32 → Binary32 → Option Binary32
  floatSub : Binary32 → Binary32 → Option Binary32
  floatMul : Binary32 → Binary32 → Option Binary32
  floatDiv : Binary32 → Binary32 → Option Binary32
  floatRem : Binary32 → Binary32 → Option Binary32

namespace Binary

variable {f : Format}

/-- The magnitude with the sign. Both zeros have rank zero. -/
def rank (x : Binary f) : Int := if x.isNegative then -x.magnitude else x.magnitude

/-! ## Comparisons -/

def less (x y : Binary f) : Bool := !x.isNaN && !y.isNaN && x.rank < y.rank

def same (x y : Binary f) : Bool := !x.isNaN && !y.isNaN && x.rank = y.rank

/-! ## Comparing with zero -/

theorem rank_zero : (zero : Binary32).rank = 0 := by decide +kernel

theorem isNaN_zero : (zero : Binary32).isNaN = false := by decide +kernel

/-- A number is below or above zero unless it is a zero. -/
theorem less_or_less_zero {x : Binary32} (h : x.isNaN = false) :
    (x.less zero || less zero x) = !x.isZero := by
  have hmag := isZero_iff_magnitude x
  -- Both comparisons are of the rank with zero, and only zeros have rank zero.
  simp only [less, h, isNaN_zero, rank_zero]
  cases hz : x.isZero with
  | true =>
    have h0 : x.rank = 0 := by simp [rank, hmag.mp hz]
    simp [h0]
  | false =>
    have h0 : x.magnitude ≠ 0 := fun h0 => by simp [hmag.mpr h0] at hz
    have hrank : x.rank < 0 ∨ 0 < x.rank := by
      unfold rank
      split <;> omega
    simpa using hrank

/-! ## Conversions keep numbers numbers -/

theorem isNaN_narrow {x : Binary64} (h : x.isNaN = false) :
    (x.narrow : Binary32).isNaN = false := by
  simp only [narrow, h, Bool.false_eq_true, if_false]
  apply isNaN_ofMagnitude
  -- An infinity stays one, and every other number is rounded to an infinity at most.
  split
  · exact Nat.le_refl _
  · exact Nat.min_le_right _ _

theorem isNaN_ofInt (n : Int) : (ofInt n : Binary32).isNaN = false :=
  isNaN_ofMagnitude _ (Nat.min_le_right _ _)

/-- Truth values are the same numbers in both types. -/
theorem ofInt_ofBool (b : Bool) :
    (ofInt (if b then 1 else 0) : Binary32) = if b then one else zero := by
  cases b with
  | false => decide +kernel
  | true => decide +kernel

end Binary

end TinyC
