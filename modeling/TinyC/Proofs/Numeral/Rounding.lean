import TinyC.Numeral.Decimal
import TinyC.Proofs.Numeral.Fields

/-!
# Correct rounding

Patterns are ordered as the numbers they stand for, so rounding is known once it is known which
quotients are rounded to a pattern or below it. These are the quotients below the middle between the
number and the next one, and that middle too if the pattern is even. Main statement: a decimal reads
as a positive finite number exactly if it lies in the interval of that number.
-/

namespace TinyC

/-! ## Quotients of natural numbers -/

/-- The nearest number is at most `m` below the middle between `m` and the next number, and at that
middle if `m` is even. -/
theorem roundDiv_le_iff {n d m : Nat} (hd : 0 < d) :
    roundDiv n d ≤ m ↔ 2 * n < (2 * m + 1) * d ∨ 2 * n = (2 * m + 1) * d ∧ m % 2 = 0 := by
  have hn := Nat.div_add_mod n d
  have hr := Nat.mod_lt n hd
  simp only [roundDiv, Bool.or_eq_true, Bool.and_eq_true, decide_eq_true_eq]
  rcases Nat.lt_trichotomy (n / d) m with hlt | heq | hgt
  · have hle : d * (n / d + 1) ≤ d * m := Nat.mul_le_mul_left d hlt
    have hbound : 2 * n < (2 * m + 1) * d := by
      rw [Nat.mul_add_one] at hle
      rw [Nat.add_mul, Nat.one_mul, Nat.mul_assoc, Nat.mul_comm m d]
      omega
    refine iff_of_true ?_ (.inl hbound)
    split <;> omega
  · have hmiddle : (2 * m + 1) * d = 2 * (d * (n / d)) + d := by
      rw [heq, Nat.add_mul, Nat.one_mul, Nat.mul_assoc, Nat.mul_comm m d]
    rw [hmiddle]
    split <;> omega
  · have hle : d * (m + 1) ≤ d * (n / d) := Nat.mul_le_mul_left d hgt
    have hbound : (2 * m + 1) * d < 2 * n := by
      rw [Nat.mul_add_one] at hle
      rw [Nat.add_mul, Nat.one_mul, Nat.mul_assoc, Nat.mul_comm m d]
      omega
    refine iff_of_false ?_ (by omega)
    split <;> omega

theorem roundDiv_le {n d m : Nat} (hd : 0 < d) (h : n ≤ m * d) : roundDiv n d ≤ m := by
  rw [roundDiv_le_iff hd]
  left
  rw [Nat.add_mul, Nat.mul_assoc]
  omega

theorem le_roundDiv {n d m : Nat} (hd : 0 < d) (h : m * d ≤ n) : m ≤ roundDiv n d := by
  have hle := (Nat.le_div_iff_mul_le hd).mpr h
  simp only [roundDiv]
  split <;> omega

/-! ## Rounding to a format -/

namespace Format

variable {f : Format} {num den : Nat}

theorem two_mul_le (den : Nat) {s t : Nat} (h : s < t) : 2 * (den * 2 ^ s) ≤ den * 2 ^ t := by
  rw [Nat.mul_left_comm, ← Nat.pow_succ']
  exact Nat.mul_le_mul_left den (Nat.pow_le_pow_right (by decide) h)

/-- The place of the digits that are rounded away leaves no more digits than the format has. -/
theorem scaled_lt (hden : 0 < den) :
    num * 2 ^ f.scale <
      2 * f.exponentUnit * (den * 2 ^ ((num * 2 ^ f.scale / den).log2 - f.fractionBits)) := by
  set scaled := num * 2 ^ f.scale
  have hlt : scaled / den < 2 ^ ((scaled / den).log2 + 1) := Nat.lt_log2_self
  have hle : (scaled / den).log2 + 1 ≤
      1 + f.fractionBits + ((scaled / den).log2 - f.fractionBits) := by omega
  have hpow := Nat.lt_of_lt_of_le hlt (Nat.pow_le_pow_right (by decide) hle)
  rw [pow_add, pow_add, pow_one] at hpow
  have hmul := (Nat.div_lt_iff_lt_mul hden).mp hpow
  rwa [Nat.mul_assoc, Nat.mul_comm (2 ^ _) den] at hmul

/-- It leaves no fewer either, unless it is the lowest. -/
theorem le_scaled {shift : Nat} (hden : 0 < den)
    (h : shift = (num * 2 ^ f.scale / den).log2 - f.fractionBits) (hpos : 0 < shift) :
    f.exponentUnit * (den * 2 ^ shift) ≤ num * 2 ^ f.scale := by
  set scaled := num * 2 ^ f.scale
  have hne : scaled / den ≠ 0 := by
    intro h0
    rw [h0, Nat.log2_zero] at h
    omega
  have hle : 2 ^ (f.fractionBits + shift) ≤ scaled / den := by
    have heq : f.fractionBits + shift = (scaled / den).log2 := by omega
    rw [heq]
    exact Nat.log2_self_le hne
  rw [pow_add] at hle
  have hmul := (Nat.le_div_iff_mul_le hden).mp hle
  rwa [Nat.mul_assoc, Nat.mul_comm (2 ^ _) den] at hmul

theorem round_le_infinity (num den : Nat) : f.round num den ≤ f.infinity := Nat.min_le_right _ _

/-- Rounding goes to a finite number or below it up to the middle between the number and the next
one, and at that middle if the number is even. -/
theorem round_le_iff (hden : 0 < den) {x : Binary f} (hx : x.magnitude < f.infinity) :
    f.round num den ≤ x.magnitude ↔
      2 * (num * 2 ^ f.scale) < (2 * x.significand + 1) * (den * 2 ^ (x.place - 1)) ∨
      2 * (num * 2 ^ f.scale) = (2 * x.significand + 1) * (den * 2 ^ (x.place - 1)) ∧
        x.significand % 2 = 0 := by
  have hround : f.round num den ≤ x.magnitude ↔
      ((num * 2 ^ f.scale / den).log2 - f.fractionBits) * f.exponentUnit +
        roundDiv (num * 2 ^ f.scale)
          (den * 2 ^ ((num * 2 ^ f.scale / den).log2 - f.fractionBits)) ≤ x.magnitude := by
    rw [round]
    simp only [Nat.pow_eq]
    omega
  rw [hround, x.magnitude_eq_place]
  have hsig := x.significand_lt
  have hlt : num * 2 ^ f.scale < _ := scaled_lt (f := f) hden
  generalize hshift : (num * 2 ^ f.scale / den).log2 - f.fractionBits = shift at hlt ⊢
  have hge := le_scaled (f := f) hden hshift.symm
  generalize num * 2 ^ f.scale = scaled at hlt hge ⊢
  have hd : 0 < den * 2 ^ shift := Nat.mul_pos hden (Nat.two_pow_pos _)
  rcases Nat.lt_trichotomy shift (x.place - 1) with hless | heq | hmore
  -- The quotient lies below the place of the number.
  · have hle := x.le_significand (by omega)
    have hrest := roundDiv_le hd hlt.le
    have hunits := Nat.mul_le_mul_right f.exponentUnit hless
    have hstep := two_mul_le den hless
    refine iff_of_true ?_ (.inl ?_)
    · rw [Nat.succ_mul] at hunits
      omega
    · calc 2 * scaled < 2 * (2 * f.exponentUnit * (den * 2 ^ shift)) := by omega
        _ = 2 * f.exponentUnit * (2 * (den * 2 ^ shift)) := by ring
        _ ≤ 2 * f.exponentUnit * (den * 2 ^ (x.place - 1)) := Nat.mul_le_mul_left _ hstep
        _ ≤ (2 * x.significand + 1) * (den * 2 ^ (x.place - 1)) :=
          Nat.mul_le_mul_right _ (by omega)
  -- It is rounded at that place.
  · rw [heq, Nat.add_le_add_iff_left, roundDiv_le_iff (heq ▸ hd)]
  -- It lies above.
  · have hge := hge (by omega)
    have hrest := le_roundDiv hd hge
    have hunits := Nat.mul_le_mul_right f.exponentUnit hmore
    have hstep := two_mul_le den hmore
    refine iff_of_false ?_ ?_
    · rw [Nat.succ_mul] at hunits
      omega
    · have hpos : 0 < den * 2 ^ (x.place - 1) := Nat.mul_pos hden (Nat.two_pow_pos _)
      have hbound : (2 * x.significand + 1) * (den * 2 ^ (x.place - 1)) < 2 * scaled :=
        calc (2 * x.significand + 1) * (den * 2 ^ (x.place - 1))
            < 2 * (2 * f.exponentUnit) * (den * 2 ^ (x.place - 1)) :=
              Nat.mul_lt_mul_of_pos_right (by omega) hpos
          _ = 2 * (f.exponentUnit * (2 * (den * 2 ^ (x.place - 1)))) := by ring
          _ ≤ 2 * (f.exponentUnit * (den * 2 ^ shift)) :=
              Nat.mul_le_mul_left 2 (Nat.mul_le_mul_left _ hstep)
          _ ≤ 2 * scaled := Nat.mul_le_mul_left 2 hge
      omega

end Format

/-! ## Numbers -/

namespace Binary

variable {f : Format} (x : Binary f)

/-- The number that a finite pattern stands for, its sign apart. -/
def value : ℚ := x.numerator / 2 ^ (f.scale + 1)

/-- The middle between a finite number and the next one. -/
def upper : ℚ := (2 * x.significand + 1) * 2 ^ (x.place - 1) / 2 ^ (f.scale + 1)

/-- A number up to the middle is rounded to the pattern or below it. -/
def Bounds (v : ℚ) : Prop := v < x.upper ∨ v = x.upper ∧ x.significand % 2 = 0

theorem one_div_le_upper : 1 / 2 ^ (f.scale + 1) ≤ x.upper := by
  unfold upper
  gcongr
  have hpow : (1 : ℚ) ≤ 2 ^ (x.place - 1) := one_le_pow₀ (by norm_num)
  have hsig : (0 : ℚ) ≤ x.significand := Nat.cast_nonneg _
  nlinarith

end Binary

theorem Format.round_le_iff_bounds {f : Format} {num den : Nat} (hden : 0 < den) {x : Binary f}
    (hx : x.magnitude < f.infinity) : f.round num den ≤ x.magnitude ↔ x.Bounds (num / den) := by
  have hden' : (0 : ℚ) < den := by exact_mod_cast hden
  have hlt : (num / den : ℚ) < x.upper ↔
      2 * (num * 2 ^ f.scale) < (2 * x.significand + 1) * (den * 2 ^ (x.place - 1)) := by
    rw [Binary.upper, div_lt_div_iff₀ hden' (by positivity), ← Nat.cast_lt (α := ℚ)]
    push_cast
    rw [pow_succ]
    constructor <;> intro h <;> linarith
  have heq : (num / den : ℚ) = x.upper ↔
      2 * (num * 2 ^ f.scale) = (2 * x.significand + 1) * (den * 2 ^ (x.place - 1)) := by
    rw [Binary.upper, div_eq_div_iff hden'.ne' (by positivity), ← Nat.cast_inj (R := ℚ)]
    push_cast
    rw [pow_succ]
    constructor <;> intro h <;> linarith
  rw [round_le_iff hden hx, Binary.Bounds, hlt, heq]

/-! ## Reading decimals -/

namespace Binary

theorem scale_binary64 : Format.binary64.scale = 1074 := by decide

/-- The finite numbers end below a power of two. -/
theorem upper_lt {x : Binary64} (hx : x.magnitude < Format.binary64.infinity) :
    x.upper < 2 ^ 1024 := by
  have hplace : x.place - 1 ≤ 2045 := by
    have hlt : x.exponent < 2047 := by
      have hle : x.exponent * 2 ^ 52 ≤ x.magnitude := x.magnitude_eq ▸ Nat.le_add_right _ _
      have hinf : x.magnitude < 2047 * 2 ^ 52 := hx
      omega
    rw [place]
    omega
  have hsig : (2 * x.significand + 1 : ℚ) < 2 ^ 54 := by
    have hlt : x.significand < 2 * 2 ^ 52 := x.significand_lt
    exact_mod_cast (by omega : 2 * x.significand + 1 < 2 ^ 54)
  have hpow : (2 : ℚ) ^ (x.place - 1) ≤ 2 ^ 2045 := pow_le_pow_right₀ (by norm_num) hplace
  rw [upper, scale_binary64, div_lt_iff₀ (by positivity), ← pow_add]
  calc (2 * x.significand + 1 : ℚ) * 2 ^ (x.place - 1)
      < 2 ^ 54 * 2 ^ (x.place - 1) := by gcongr
    _ ≤ 2 ^ 54 * 2 ^ 2045 := by gcongr
    _ = 2 ^ (1024 + (1074 + 1)) := by rw [← pow_add]

end Binary

namespace Decimal

/-- The number that a decimal stands for. -/
def value (d : Decimal) : ℚ := d.digits * 10 ^ d.exponent

/-- A decimal that is taken for infinite is larger than all finite numbers. -/
theorem lt_value {d : Decimal} (hdigits : d.digits ≠ 0) (h : 400 < d.exponent) :
    2 ^ 1024 < d.value := by
  have hone : (1 : ℚ) ≤ d.digits := by exact_mod_cast Nat.one_le_iff_ne_zero.mpr hdigits
  calc (2 : ℚ) ^ 1024 < 8 ^ 400 := by
        rw [show (8 : ℚ) = 2 ^ 3 by norm_num, ← pow_mul]
        exact pow_lt_pow_right₀ (by norm_num) (by norm_num)
    _ ≤ 10 ^ 400 := pow_le_pow_left₀ (by norm_num) (by norm_num) _
    _ = 10 ^ (400 : Int) := (zpow_ofNat 10 400).symm
    _ ≤ 10 ^ d.exponent := zpow_le_zpow_right₀ (by norm_num) h.le
    _ ≤ d.digits * 10 ^ d.exponent := le_mul_of_one_le_left (by positivity) hone

/-- One that is taken for zero is smaller than half the least number. -/
theorem value_lt {d : Decimal} (h : d.exponent + d.digits.log2 < -400) :
    d.value < 1 / 2 ^ 1075 := by
  have hlt : (d.digits : ℚ) < 10 ^ (d.digits.log2 + 1) := by
    calc (d.digits : ℚ) < 2 ^ (d.digits.log2 + 1) := by
          exact_mod_cast Nat.lt_log2_self (n := d.digits)
      _ ≤ 10 ^ (d.digits.log2 + 1) := pow_le_pow_left₀ (by norm_num) (by norm_num) _
  calc d.value < 10 ^ (d.digits.log2 + 1) * 10 ^ d.exponent := by
        unfold value
        gcongr
    _ = 10 ^ (d.digits.log2 + 1 + d.exponent : Int) := by
        rw [zpow_add₀ (by norm_num)]
        norm_cast
    _ ≤ 10 ^ (-400 : Int) := zpow_le_zpow_right₀ (by norm_num) (by omega)
    _ = 1 / 10 ^ 400 := by rw [zpow_neg, one_div]; norm_cast
    _ ≤ 1 / 8 ^ 400 := by
        gcongr
        norm_num
    _ ≤ 1 / 2 ^ 1075 := by
        rw [show (8 : ℚ) = 2 ^ 3 by norm_num, ← pow_mul]
        gcongr
        · norm_num
        · norm_num

/-- Reading goes to a finite number or below it up to the middle between the number and the next
one. Where powers of ten are not computed, the decimal is out of reach of all of these middles. -/
theorem magnitude_le_iff {x : Binary64} (hx : x.magnitude < Format.binary64.infinity)
    (d : Decimal) : d.toBinary64.magnitude ≤ x.magnitude ↔ x.Bounds d.value := by
  have hleast : 1 / 2 ^ 1075 ≤ x.upper := by
    simpa only [Binary.scale_binary64] using x.one_div_le_upper
  have hgreatest := Binary.upper_lt hx
  have hmagnitude {pattern : Nat} (h : pattern ≤ Format.binary64.infinity) :
      (.ofMagnitude false pattern : Binary64).magnitude = pattern :=
    Binary.magnitude_ofMagnitude (Format.lt_signUnit_of_le_infinity h)
  unfold toBinary64
  split_ifs with hdigits hlarge hwhole hsmall
  · rw [hmagnitude (Nat.zero_le _)]
    refine iff_of_true (Nat.zero_le _) (.inl (lt_of_lt_of_le ?_ hleast))
    simp [value, hdigits]
  · rw [hmagnitude (Nat.le_refl _)]
    refine iff_of_false (Nat.not_le.mpr hx) ?_
    have hgt := hgreatest.trans (lt_value hdigits hlarge)
    rintro (h | ⟨h, -⟩)
    · exact lt_asymm hgt h
    · exact hgt.ne' h
  · rw [hmagnitude (Format.round_le_infinity _ _), Format.round_le_iff_bounds (by decide) hx]
    have hvalue : d.value = ((d.digits * Nat.pow 10 d.exponent.toNat : Nat) / (1 : Nat) : ℚ) := by
      obtain ⟨e, he⟩ := Int.eq_ofNat_of_zero_le hwhole
      simp [value, he]
    rw [hvalue]
  · rw [hmagnitude (Nat.zero_le _)]
    exact iff_of_true (Nat.zero_le _) (.inl (lt_of_lt_of_le (value_lt hsmall) hleast))
  · have hden : 0 < Nat.pow 10 (-d.exponent).toNat := Nat.pow_pos (by decide)
    rw [hmagnitude (Format.round_le_infinity _ _), Format.round_le_iff_bounds hden hx]
    have hvalue : d.value = (d.digits / (Nat.pow 10 (-d.exponent).toNat : Nat) : ℚ) := by
      obtain ⟨e, he⟩ := Int.eq_ofNat_of_zero_le (Int.neg_nonneg.mpr (Int.not_le.mp hwhole).le)
      have he' : d.exponent = -(e : Int) := by omega
      simp [value, he', div_eq_mul_inv]
    rw [hvalue]

theorem exists_pattern (d : Decimal) :
    ∃ pattern ≤ Format.binary64.infinity, d.toBinary64 = .ofMagnitude false pattern := by
  refine ⟨_, ?_, rfl⟩
  split_ifs with hdigits hlarge hwhole hsmall
  · exact Nat.zero_le _
  · exact Nat.le_refl _
  · exact Format.round_le_infinity _ _
  · exact Nat.zero_le _
  · exact Format.round_le_infinity _ _

theorem isNegative_toBinary64 (d : Decimal) : d.toBinary64.isNegative = false := by
  obtain ⟨pattern, hle, hpattern⟩ := d.exists_pattern
  rw [hpattern]
  exact Binary.isNegative_ofMagnitude (Format.lt_signUnit_of_le_infinity hle)

end Decimal

/-! ## Intervals of positive numbers -/

namespace Binary

variable {f : Format} {x : Binary f}

/-- A finite number above zero. -/
structure IsPositive (x : Binary f) : Prop where
  sign : x.isNegative = false
  pos : 0 < x.magnitude
  finite : x.magnitude < f.infinity

/-- The number before a positive one. -/
def pred (x : Binary f) : Binary f := ofMagnitude false (x.magnitude - 1)

/-- Just above a power of two, the numbers below are twice as dense. -/
def IsSparse (x : Binary f) : Prop := x.fraction = 0 ∧ 1 < x.place

namespace IsPositive

theorem magnitude_pred (hx : x.IsPositive) : x.pred.magnitude = x.magnitude - 1 :=
  magnitude_ofMagnitude (Format.lt_signUnit_of_le_infinity (by have := hx.finite; omega))

theorem significand_pos (hx : x.IsPositive) : 0 < x.significand := by
  by_contra h
  have hplace : ¬1 < x.place := fun hplace => by
    have hle := x.le_significand hplace
    have hunit := f.exponentUnit_pos
    omega
  have hzero : x.place - 1 = 0 := by omega
  have hpos := hx.pos
  rw [x.magnitude_eq_place, hzero, Nat.zero_mul] at hpos
  omega

theorem of_isSparse (hx : x.IsPositive) (h : x.IsSparse) : x.significand = f.exponentUnit ∧
    x.pred.place = x.place - 1 ∧ x.pred.significand = 2 * f.exponentUnit - 1 := by
  obtain ⟨hfraction, hplace⟩ := h
  have hunit := f.exponentUnit_pos
  have hexponent := x.exponent_eq_place hplace
  have hsig : x.significand = f.exponentUnit := by
    rw [significand, if_neg (by omega), hfraction, Nat.add_zero]
  obtain ⟨s, hs⟩ := Nat.exists_eq_add_of_lt hplace
  obtain ⟨hp, hm⟩ := x.pred.place_significand_eq (s := s) (m := 2 * f.exponentUnit - 1) (by omega)
    (by omega) (by
      have hs' : x.place - 1 = s + 1 := by omega
      rw [hx.magnitude_pred, x.magnitude_eq_place, hsig, hs', Nat.add_one_mul]
      omega)
  exact ⟨hsig, by omega, hm⟩

theorem of_not_isSparse (hx : x.IsPositive) (h : ¬x.IsSparse) :
    x.pred.place = x.place ∧ x.pred.significand = x.significand - 1 := by
  have hpos := hx.significand_pos
  have hlt := x.significand_lt
  have hplace : 1 ≤ x.place := Nat.le_max_right _ _
  obtain ⟨hp, hm⟩ := x.pred.place_significand_eq (s := x.place - 1) (m := x.significand - 1)
    (by omega)
    (by
      intro hs
      have hexponent := x.exponent_eq_place (by omega)
      have hfraction : x.fraction ≠ 0 := fun h0 => h ⟨h0, by omega⟩
      rw [significand, if_neg (by omega)]
      omega)
    (by
      rw [hx.magnitude_pred, x.magnitude_eq_place]
      omega)
  exact ⟨by omega, hm⟩

end IsPositive

end Binary

namespace Decimal

namespace Interval

/-- The power of ten that makes the least positive number larger than one. -/
def raise : Nat := Nat.pow 10 345

/-- The denominator of the numbers in an interval. -/
def denominator : Nat := Nat.pow 2 1076

/-- What a number is multiplied by in an interval. -/
def scale : ℚ := raise * denominator

/-- A number, multiplied so, lies in the interval. -/
def Covers (i : Interval) (v : ℚ) : Prop :=
  i.low < v ∧ v < i.high ∨ i.closed = true ∧ (v = i.low ∨ v = i.high)

theorem contains_iff (i : Interval) (n : Nat) : i.contains n = true ↔ i.Covers n := by
  simp [contains, Covers]

theorem raise_pos : 0 < raise := by
  unfold raise
  generalize 345 = e
  exact Nat.pow_pos (by decide)

theorem denominator_eq : denominator = 2 ^ (Format.binary64.scale + 2) := by
  have hscale : 1076 = Format.binary64.scale + 2 := by decide
  unfold denominator
  generalize 1076 = k at hscale ⊢
  rw [hscale, Nat.pow_eq]

theorem denominator_pos : 0 < denominator := by
  rw [denominator_eq]
  exact Nat.two_pow_pos _

theorem scale_pos : 0 < scale :=
  mul_pos (Nat.cast_pos.mpr raise_pos) (Nat.cast_pos.mpr denominator_pos)

variable {x : Binary64}

/-- A quarter of the distance between a number and the next one. -/
def unit (x : Binary64) : Nat := Nat.pow 2 (x.place - 1) * Nat.pow 10 345

theorem unit_eq (x : Binary64) : unit x = 2 ^ (x.place - 1) * raise := by
  unfold unit raise
  rfl

theorem unit_pos (x : Binary64) : 0 < unit x := by
  rw [unit_eq]
  exact Nat.mul_pos (Nat.two_pow_pos _) raise_pos

theorem middle_eq (x : Binary64) : (ofBinary64 x).middle = 4 * x.significand * unit x := rfl

theorem high_eq (x : Binary64) : (ofBinary64 x).high = (4 * x.significand + 2) * unit x :=
  (Nat.add_mul _ _ _).symm

theorem low_of_isSparse (h : x.IsSparse) :
    (ofBinary64 x).low = (4 * x.significand - 1) * unit x := by
  have hif : (decide (x.fraction = 0) && decide (1 < x.place)) = true := by
    simpa [Binary.IsSparse] using h
  rw [Nat.sub_mul, Nat.one_mul, ← middle_eq]
  exact congrArg _ (if_pos hif)

theorem low_of_not_isSparse (h : ¬x.IsSparse) :
    (ofBinary64 x).low = (4 * x.significand - 2) * unit x := by
  have hif : ¬(decide (x.fraction = 0) && decide (1 < x.place)) = true := by
    simpa [Binary.IsSparse] using h
  rw [Nat.sub_mul, ← middle_eq]
  exact congrArg _ (if_neg hif)

/-- The lower end is the upper end of the number before. -/
theorem low_eq (hx : x.IsPositive) : (ofBinary64 x).low = (ofBinary64 x.pred).high := by
  have hpos := hx.significand_pos
  rw [high_eq]
  by_cases h : x.IsSparse
  · obtain ⟨hsig, hplace, hpred⟩ := hx.of_isSparse h
    have hunit : unit x = 2 * unit x.pred := by
      have hsucc : x.place - 1 = x.pred.place - 1 + 1 := by
        have hlt := h.2
        omega
      rw [unit_eq, unit_eq, hsucc, Nat.pow_succ', Nat.mul_assoc]
    rw [low_of_isSparse h, hunit, hpred, hsig, ← Nat.mul_assoc]
    rfl
  · obtain ⟨hplace, hpred⟩ := hx.of_not_isSparse h
    rw [low_of_not_isSparse h, unit_eq, unit_eq, hplace, hpred]
    congr 1
    omega

theorem high_eq_upper (x : Binary64) : ((ofBinary64 x).high : ℚ) = x.upper * scale := by
  rw [high_eq, unit_eq, Binary.upper, scale, denominator_eq]
  push_cast
  rw [pow_succ _ (_ + 1)]
  field_simp
  ring

theorem closed_iff (x : Binary64) : (ofBinary64 x).closed = true ↔ x.significand % 2 = 0 :=
  decide_eq_true_iff

/-- Of two numbers next to each other one is even. -/
theorem even_pred_iff (hx : x.IsPositive) :
    x.pred.significand % 2 = 0 ↔ ¬x.significand % 2 = 0 := by
  have hpos := hx.significand_pos
  by_cases h : x.IsSparse
  · obtain ⟨hsig, -, hpred⟩ := hx.of_isSparse h
    rw [hsig, hpred]
    decide
  · rw [(hx.of_not_isSparse h).2]
    omega

theorem low_lt_middle (hx : x.IsPositive) : (ofBinary64 x).low < (ofBinary64 x).middle := by
  have hpos := hx.significand_pos
  have hunit := unit_pos x
  rw [middle_eq]
  by_cases h : x.IsSparse
  · rw [low_of_isSparse h]
    exact Nat.mul_lt_mul_of_pos_right (by omega) hunit
  · rw [low_of_not_isSparse h]
    exact Nat.mul_lt_mul_of_pos_right (by omega) hunit

theorem middle_lt_high (x : Binary64) : (ofBinary64 x).middle < (ofBinary64 x).high := by
  rw [middle_eq, high_eq]
  exact Nat.mul_lt_mul_of_pos_right (by omega) (unit_pos x)

end Interval

/-- A decimal reads as a positive number exactly if it lies in the interval of the number. -/
theorem toBinary64_eq_iff {x : Binary64} (hx : x.IsPositive) (d : Decimal) :
    d.toBinary64 = x ↔ (Interval.ofBinary64 x).Covers (d.value * Interval.scale) := by
  have hpred : x.pred.magnitude < Format.binary64.infinity := by
    have hfinite := hx.finite
    rw [hx.magnitude_pred]
    omega
  have hmagnitude : d.toBinary64 = x ↔ x.Bounds d.value ∧ ¬x.pred.Bounds d.value := by
    rw [← magnitude_le_iff hx.finite, ← magnitude_le_iff hpred, hx.magnitude_pred]
    constructor
    · rintro rfl
      have hpos := hx.pos
      omega
    · rintro ⟨hle, hgt⟩
      have hsign : d.toBinary64.isNegative = x.isNegative := by
        rw [d.isNegative_toBinary64, hx.sign]
      exact Binary.eq_of_magnitude hsign (by omega)
  have hends : x.pred.upper < x.upper := by
    have hlt : ((Interval.ofBinary64 x).low : ℚ) < (Interval.ofBinary64 x).high := by
      exact_mod_cast (Interval.low_lt_middle hx).trans (Interval.middle_lt_high x)
    rw [Interval.low_eq hx, Interval.high_eq_upper, Interval.high_eq_upper] at hlt
    exact lt_of_mul_lt_mul_right hlt Interval.scale_pos.le
  rw [hmagnitude, Interval.Covers, Interval.low_eq hx, Interval.high_eq_upper,
    Interval.high_eq_upper, Interval.closed_iff]
  simp only [mul_lt_mul_iff_left₀ Interval.scale_pos, mul_left_inj' Interval.scale_pos.ne',
    Binary.Bounds, Interval.even_pred_iff hx]
  grind

end Decimal

end TinyC
