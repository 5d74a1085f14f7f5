import Mathlib
import TinyC.Numeral.Binary

/-!
# Fields of binary numbers

A pattern is a sign above a magnitude, and a magnitude is an exponent and a fraction. Magnitudes are
ordered as the numbers they stand for: zero comes first, infinity behind all finite numbers, and
what is not a number behind infinity.
-/

namespace TinyC

namespace Format

theorem exponentUnit_pos (f : Format) : 0 < f.exponentUnit := Nat.two_pow_pos _

theorem signUnit_eq (f : Format) : f.signUnit = f.exponentUnit * (f.topExponent + 1) := by
  have hpos := Nat.two_pow_pos f.exponentBits
  simp only [signUnit, exponentUnit, topExponent, Nat.pow_eq]
  rw [Nat.sub_add_cancel hpos, ← pow_add, Nat.add_comm]

theorem two_pow_width (f : Format) : 2 ^ f.width = 2 * f.signUnit := by
  rw [width, Nat.add_assoc, pow_add, pow_one]
  rfl

theorem exponentUnit_dvd_signUnit (f : Format) : f.exponentUnit ∣ f.signUnit :=
  ⟨_, f.signUnit_eq⟩

/-- A pattern below the sign bit has room for every exponent and every fraction. -/
theorem lt_signUnit (f : Format) {exponent fraction : Nat} (he : exponent ≤ f.topExponent)
    (hf : fraction < f.exponentUnit) : exponent * f.exponentUnit + fraction < f.signUnit := by
  calc exponent * f.exponentUnit + fraction
      < exponent * f.exponentUnit + f.exponentUnit := by omega
    _ = f.exponentUnit * (exponent + 1) := by rw [Nat.mul_add_one, Nat.mul_comm]
    _ ≤ f.exponentUnit * (f.topExponent + 1) := Nat.mul_le_mul_left _ (by omega)
    _ = f.signUnit := f.signUnit_eq.symm

/-- A pattern up to infinity lies below the sign bit. -/
theorem lt_signUnit_of_le_infinity {f : Format} {pattern : Nat} (h : pattern ≤ f.infinity) :
    pattern < f.signUnit :=
  Nat.lt_of_le_of_lt h (f.lt_signUnit (Nat.le_refl _) f.exponentUnit_pos)

end Format

namespace Binary

variable {f : Format}

/-- The pattern below the sign bit. -/
def magnitude (x : Binary f) : Nat := x.bits.toNat % f.signUnit

theorem exponent_eq_div (x : Binary f) : x.exponent = x.magnitude / f.exponentUnit := rfl

theorem fraction_lt (x : Binary f) : x.fraction < f.exponentUnit :=
  Nat.mod_lt _ f.exponentUnit_pos

theorem exponent_le (x : Binary f) : x.exponent ≤ f.topExponent := by
  apply Nat.le_of_lt_succ
  apply Nat.div_lt_of_lt_mul
  rw [← Nat.add_one, ← f.signUnit_eq]
  exact Nat.mod_lt _ (Nat.two_pow_pos _)

theorem magnitude_eq (x : Binary f) :
    x.magnitude = x.exponent * f.exponentUnit + x.fraction := by
  rw [fraction, ← Nat.mod_mod_of_dvd x.bits.toNat f.exponentUnit_dvd_signUnit, exponent]
  exact (Nat.div_add_mod' _ _).symm

/-- A pattern is its magnitude below its sign. -/
theorem toNat_bits (x : Binary f) :
    x.bits.toNat = (if x.isNegative then f.signUnit else 0) + x.magnitude := by
  have hlt : x.bits.toNat < 2 * f.signUnit := by
    rw [← f.two_pow_width]
    exact x.bits.isLt
  rw [magnitude]
  by_cases hle : f.signUnit ≤ x.bits.toNat
  · rw [if_pos (by simpa [isNegative] using hle), Nat.mod_eq_sub_mod hle,
      Nat.mod_eq_of_lt (by omega)]
    omega
  · rw [if_neg (by simpa [isNegative] using hle), Nat.mod_eq_of_lt (by omega), Nat.zero_add]

theorem eq_of_magnitude {x y : Binary f} (hsign : x.isNegative = y.isNegative)
    (h : x.magnitude = y.magnitude) : x = y := by
  have hbits : x.bits = y.bits := by
    apply BitVec.eq_of_toNat_eq
    rw [x.toNat_bits, y.toNat_bits, hsign, h]
  cases x
  cases y
  cases hbits
  rfl

theorem eq_of_fields {x y : Binary f} (hsign : x.isNegative = y.isNegative)
    (hexponent : x.exponent = y.exponent) (hfraction : x.fraction = y.fraction) : x = y := by
  apply eq_of_magnitude hsign
  rw [x.magnitude_eq, y.magnitude_eq, hexponent, hfraction]

section ofMagnitude

variable {negative : Bool} {pattern : Nat}

theorem toNat_ofMagnitude (h : pattern < f.signUnit) :
    (ofMagnitude negative pattern : Binary f).bits.toNat =
      (if negative then f.signUnit else 0) + pattern := by
  rw [ofMagnitude, BitVec.toNat_ofNat, f.two_pow_width]
  apply Nat.mod_eq_of_lt
  split <;> omega

theorem magnitude_ofMagnitude (h : pattern < f.signUnit) :
    (ofMagnitude negative pattern : Binary f).magnitude = pattern := by
  rw [magnitude, toNat_ofMagnitude h]
  cases negative with
  | true => rw [if_pos rfl, Nat.add_mod_left, Nat.mod_eq_of_lt h]
  | false => rw [if_neg Bool.false_ne_true, Nat.zero_add, Nat.mod_eq_of_lt h]

theorem isNegative_ofMagnitude (h : pattern < f.signUnit) :
    (ofMagnitude negative pattern : Binary f).isNegative = negative := by
  rw [isNegative, toNat_ofMagnitude h]
  cases negative with
  | true => simp
  | false => simpa using h

theorem exponent_ofMagnitude (h : pattern < f.signUnit) :
    (ofMagnitude negative pattern : Binary f).exponent = pattern / f.exponentUnit :=
  congrArg (· / f.exponentUnit) (magnitude_ofMagnitude h)

theorem fraction_ofMagnitude (h : pattern < f.signUnit) :
    (ofMagnitude negative pattern : Binary f).fraction = pattern % f.exponentUnit := by
  rw [fraction, toNat_ofMagnitude h]
  cases negative with
  | true =>
    rw [if_pos rfl, f.signUnit_eq, Nat.mul_add_mod]
  | false => rw [if_neg Bool.false_ne_true, Nat.zero_add]

end ofMagnitude

/-- The fields that a number is put together from. -/
structure HasFields (x : Binary f) (negative : Bool) (exponent fraction : Nat) : Prop where
  sign : x.isNegative = negative
  exponent : x.exponent = exponent
  fraction : x.fraction = fraction

theorem hasFields_ofMagnitude (negative : Bool) {exponent fraction : Nat}
    (he : exponent ≤ f.topExponent) (hf : fraction < f.exponentUnit) :
    (ofMagnitude negative (exponent * f.exponentUnit + fraction) : Binary f).HasFields negative
      exponent fraction := by
  have hlt := f.lt_signUnit he hf
  refine ⟨isNegative_ofMagnitude hlt, ?_, ?_⟩
  · rw [exponent_ofMagnitude hlt, Nat.mul_comm, Nat.mul_add_div f.exponentUnit_pos,
      Nat.div_eq_of_lt hf, Nat.add_zero]
  · rw [fraction_ofMagnitude hlt, Nat.mul_comm, Nat.mul_add_mod, Nat.mod_eq_of_lt hf]

/-! ## Kinds of patterns -/

section

variable (x : Binary f)

theorem isZero_iff_magnitude : x.isZero = true ↔ x.magnitude = 0 := by
  have hunit := f.exponentUnit_pos
  rw [x.magnitude_eq]
  simp [isZero, hunit.ne']

theorem isInfinite_iff_magnitude : x.isInfinite = true ↔ x.magnitude = f.infinity := by
  simp only [isInfinite, Bool.and_eq_true, decide_eq_true_eq]
  constructor
  · rintro ⟨hexponent, hfraction⟩
    rw [x.magnitude_eq, hexponent, hfraction]
    rfl
  · intro h
    have hexponent : x.exponent = f.topExponent := by
      rw [x.exponent_eq_div, h, Format.infinity, Nat.mul_div_cancel _ f.exponentUnit_pos]
    rw [x.magnitude_eq, hexponent, Format.infinity] at h
    exact ⟨hexponent, by omega⟩

theorem isNaN_iff_magnitude : x.isNaN = true ↔ f.infinity < x.magnitude := by
  simp only [isNaN, Bool.and_eq_true, decide_eq_true_eq]
  constructor
  · rintro ⟨hexponent, hfraction⟩
    rw [x.magnitude_eq, hexponent, Format.infinity]
    omega
  · intro h
    have hexponent : x.exponent = f.topExponent := by
      refine Nat.le_antisymm x.exponent_le ?_
      rw [x.exponent_eq_div]
      exact (Nat.le_div_iff_mul_le f.exponentUnit_pos).mpr h.le
    rw [x.magnitude_eq, hexponent, Format.infinity] at h
    exact ⟨hexponent, by omega⟩

end

/-- A pattern up to infinity is a number. -/
theorem isNaN_ofMagnitude (negative : Bool) {pattern : Nat} (h : pattern ≤ f.infinity) :
    (ofMagnitude negative pattern : Binary f).isNaN = false := by
  by_contra hnan
  rw [Bool.not_eq_false, isNaN_iff_magnitude,
    magnitude_ofMagnitude (Format.lt_signUnit_of_le_infinity h)] at hnan
  omega

/-! ## Places and significands -/

section

variable (x : Binary f)

/-- The significand counts on from where its place begins. -/
theorem magnitude_eq_place : x.magnitude = (x.place - 1) * f.exponentUnit + x.significand := by
  rw [magnitude_eq, place, significand]
  by_cases h : x.exponent = 0
  · simp [h]
  · rw [if_neg h, Nat.max_eq_left (by omega), ← Nat.add_assoc, ← Nat.add_one_mul,
      Nat.sub_add_cancel (by omega)]

theorem significand_lt : x.significand < 2 * f.exponentUnit := by
  have hlt := x.fraction_lt
  unfold significand
  split <;> omega

theorem exponent_eq_place (h : 1 < x.place) : x.exponent = x.place := by
  simp only [place] at h ⊢
  omega

theorem le_significand (h : 1 < x.place) : f.exponentUnit ≤ x.significand := by
  have hplace := x.exponent_eq_place h
  rw [significand, if_neg (by omega)]
  omega

/-- A pattern tells its place and its significand. -/
theorem place_significand_eq {s m : Nat} (hlt : m < 2 * f.exponentUnit)
    (hle : 0 < s → f.exponentUnit ≤ m) (h : x.magnitude = s * f.exponentUnit + m) :
    x.place = s + 1 ∧ x.significand = m := by
  have hpos := f.exponentUnit_pos
  have hsum := x.magnitude_eq
  have hexponent := x.exponent_eq_div
  rw [h, Nat.mul_comm, Nat.mul_add_div hpos] at hexponent
  rw [h] at hsum
  by_cases hm : m < f.exponentUnit
  · obtain rfl : s = 0 := by omega
    rw [Nat.div_eq_of_lt hm] at hexponent
    have hzero : x.exponent = 0 := by omega
    rw [hzero] at hsum
    refine ⟨by simp [place, hzero], ?_⟩
    rw [significand, if_pos hzero]
    omega
  · have hdiv : m / f.exponentUnit = 1 := Nat.div_eq_of_lt_le (by omega) (by omega)
    rw [hdiv] at hexponent
    rw [hexponent, Nat.add_one_mul] at hsum
    refine ⟨by simp [place, hexponent], ?_⟩
    rw [significand, if_neg (by omega)]
    omega

end

end Binary

end TinyC
