import TinyC.Proofs.Numeral.Significant

/-!
# The shortest decimal

A number is written as a decimal that reads back as it. Of these decimals it is one with the fewest
significant digits, of those it is the nearest, and of two equally near it is the upper one. All
that fixes the decimal, though not the zeros at its end. Main statement: the search on the grids of
one digit, of two digits and so on finds it, and seventeen digits suffice.

On the grid of a number of digits, the neighbours of the number decide: if any point of the grid
reads back, then so does one of them.
-/

namespace TinyC.Decimal

/-! ## Better approximations -/

/-- The second number is nearer to the first than the third is, or it is as near and not below. -/
def Closer (m v w : ℚ) : Prop := |v - m| < |w - m| ∨ |v - m| = |w - m| ∧ w ≤ v

namespace Closer

variable {m u v w : ℚ}

theorem trans (h : Closer m u v) (h' : Closer m v w) : Closer m u w := by
  rcases h with h | ⟨h, hle⟩
  · rcases h' with h' | ⟨h', -⟩
    · exact .inl (h.trans h')
    · exact .inl (h' ▸ h)
  · rcases h' with h' | ⟨h', hle'⟩
    · exact .inl (h ▸ h')
    · exact .inr ⟨h.trans h', hle'.trans hle⟩

theorem of_abs_le (h : |v - m| ≤ |w - m|) (hle : w ≤ v) : Closer m v w :=
  h.lt_or_eq.imp id fun heq => ⟨heq, hle⟩

theorem of_le (h : w ≤ v) (h' : v ≤ m) : Closer m v w := by
  rcases h.eq_or_lt with rfl | hlt
  · exact .inr ⟨rfl, le_rfl⟩
  · left
    rw [abs_of_nonpos (by linarith), abs_of_neg (by linarith)]
    linarith

theorem of_ge (h : m ≤ v) (h' : v ≤ w) : Closer m v w := by
  rcases h'.eq_or_lt with rfl | hlt
  · exact .inr ⟨rfl, le_rfl⟩
  · left
    rw [abs_of_nonneg (by linarith), abs_of_pos (by linarith)]
    linarith

/-- Numbers that are closer than each other are the same. -/
theorem antisymm (h : Closer m v w) (h' : Closer m w v) : v = w := by
  rcases h with h | ⟨h, hle⟩
  · rcases h' with h' | ⟨h', -⟩
    · exact absurd h' h.not_gt
    · exact absurd h' h.ne'
  · rcases h' with h' | ⟨-, hle'⟩
    · exact absurd h h'.ne'
    · exact le_antisymm hle' hle

theorem mul_iff {s : ℚ} (hs : 0 < s) : Closer (m * s) (v * s) (w * s) ↔ Closer m v w := by
  have habs : ∀ u : ℚ, |u * s - m * s| = |u - m| * s := fun u => by
    rw [← sub_mul, abs_mul, abs_of_pos hs]
  rw [Closer, Closer, habs, habs, mul_lt_mul_iff_left₀ hs, mul_left_inj' hs.ne',
    mul_le_mul_iff_left₀ hs]

end Closer

/-- The decimal reads as the number, no decimal with fewer digits does, and none with as many is
closer. -/
structure IsShortest (x : Binary64) (d : Decimal) : Prop where
  reads : d.toBinary64 = x
  fewest : ∀ d' : Decimal, d'.toBinary64 = x → d.significant.length ≤ d'.significant.length
  closest : ∀ d' : Decimal, d'.toBinary64 = x → d'.significant.length = d.significant.length →
    Closer x.value d.value d'.value

theorem IsShortest.value_unique {x : Binary64} {d d' : Decimal} (h : IsShortest x d)
    (h' : IsShortest x d') : d.value = d'.value := by
  have hlength := Nat.le_antisymm (h.fewest d' h'.reads) (h'.fewest d h.reads)
  exact (h.closest d' h'.reads hlength.symm).antisymm (h'.closest d h.reads hlength)

/-! ## Neighbours on a grid -/

namespace Interval

variable {i : Interval} {v w : ℚ}

/-- The middle lies between the ends. -/
structure Proper (i : Interval) : Prop where
  low_lt : i.low < i.middle
  lt_high : i.middle < i.high

theorem proper_ofBinary64 {x : Binary64} (hx : x.IsPositive) : (ofBinary64 x).Proper :=
  ⟨low_lt_middle hx, middle_lt_high x⟩

namespace Proper

/-- From a point below the middle on, the interval has no gap. -/
theorem covers_of_le (hi : i.Proper) (h : i.Covers v) (hle : v ≤ w) (hw : w ≤ i.middle) :
    i.Covers w := by
  have hhigh : (i.middle : ℚ) < i.high := by exact_mod_cast hi.lt_high
  have hmiddle : (i.low : ℚ) < i.middle := by exact_mod_cast hi.low_lt
  rcases hle.eq_or_lt with rfl | hlt
  · exact h
  · refine .inl ⟨?_, by linarith⟩
    rcases h with ⟨h, -⟩ | ⟨-, h | h⟩ <;> linarith

theorem covers_of_ge (hi : i.Proper) (h : i.Covers v) (hle : w ≤ v) (hw : i.middle ≤ w) :
    i.Covers w := by
  have hhigh : (i.middle : ℚ) < i.high := by exact_mod_cast hi.lt_high
  have hmiddle : (i.low : ℚ) < i.middle := by exact_mod_cast hi.low_lt
  rcases hle.eq_or_lt with rfl | hlt
  · exact h
  · refine .inl ⟨by linarith, ?_⟩
    rcases h with ⟨-, h⟩ | ⟨-, h | h⟩ <;> linarith

end Proper

/-- The points of a grid on both sides of the middle. -/
theorem grid_bounds (i : Interval) {step : Nat} (hstep : 0 < step) :
    ((i.middle / step * step : Nat) : ℚ) ≤ i.middle ∧
      (i.middle : ℚ) ≤ ((i.middle / step + 1) * step : Nat) := by
  constructor
  · exact_mod_cast Nat.div_mul_le_self _ _
  · exact_mod_cast (Nat.lt_div_mul_add hstep).le.trans_eq (Nat.add_one_mul _ _).symm

/-- A point of the grid in the interval has a neighbour of the middle before it. -/
theorem neighbour_of_covers {step k : Nat} (hi : i.Proper) (hstep : 0 < step)
    (h : i.Covers (k * step : Nat)) :
    (i.contains (i.middle / step * step) = true ∧
        Closer i.middle (i.middle / step * step : Nat) (k * step : Nat)) ∨
      (i.contains ((i.middle / step + 1) * step) = true ∧
        Closer i.middle ((i.middle / step + 1) * step : Nat) (k * step : Nat)) := by
  obtain ⟨hbelow, habove⟩ := i.grid_bounds hstep
  rcases Nat.lt_or_ge (i.middle / step) k with hlt | hge
  · have hle : (((i.middle / step + 1) * step : Nat) : ℚ) ≤ (k * step : Nat) := by
      exact_mod_cast Nat.mul_le_mul_right step hlt
    exact .inr ⟨(i.contains_iff _).mpr (hi.covers_of_ge h hle habove), .of_ge habove hle⟩
  · have hle : ((k * step : Nat) : ℚ) ≤ (i.middle / step * step : Nat) := by
      exact_mod_cast Nat.mul_le_mul_right step hge
    exact .inl ⟨(i.contains_iff _).mpr (hi.covers_of_le h hle hbelow), .of_le hle hbelow⟩

/-- Of the two neighbours the lower one is closer in the lower half of the step between them. -/
theorem closer_below {step : Nat} (hstep : 0 < step)
    (h : 2 * (i.middle - i.middle / step * step) < step) :
    Closer i.middle (i.middle / step * step : Nat) ((i.middle / step + 1) * step : Nat) := by
  obtain ⟨hbelow, habove⟩ := i.grid_bounds hstep
  have hle := Nat.div_mul_le_self i.middle step
  left
  rw [abs_of_nonpos (by linarith), abs_of_nonneg (by linarith)]
  rw [Nat.add_one_mul] at habove ⊢
  generalize i.middle / step * step = b at h hle habove hbelow ⊢
  have hlt : 2 * (i.middle : ℚ) < step + 2 * b := by exact_mod_cast (by omega)
  push_cast
  linarith

theorem closer_above {step : Nat} (hstep : 0 < step)
    (h : ¬2 * (i.middle - i.middle / step * step) < step) :
    Closer i.middle ((i.middle / step + 1) * step : Nat) (i.middle / step * step : Nat) := by
  obtain ⟨hbelow, habove⟩ := i.grid_bounds hstep
  have hle := Nat.div_mul_le_self i.middle step
  refine .of_abs_le ?_ (hbelow.trans habove)
  rw [abs_of_nonneg (by linarith), abs_of_nonpos (by linarith)]
  rw [Nat.add_one_mul] at habove ⊢
  generalize i.middle / step * step = b at h hle habove hbelow ⊢
  have hge : (step : ℚ) + 2 * b ≤ 2 * i.middle := by exact_mod_cast (by omega)
  push_cast
  linarith

/-- What is found on a grid is next to the middle, lies in the interval, and is closest there. -/
structure IsNeighbour (i : Interval) (step k : Nat) : Prop where
  covers : i.Covers (k * step : Nat)
  le : k ≤ i.middle / step + 1
  closest : ∀ k' : Nat, i.Covers (k' * step : Nat) →
    Closer i.middle (k * step : Nat) (k' * step : Nat)

theorem neighbour?_eq_some {step k : Nat} (hi : i.Proper) (hstep : 0 < step)
    (h : i.neighbour? step = some k) : i.IsNeighbour step k := by
  have hside := fun k' => neighbour_of_covers (k := k') hi hstep
  simp only [neighbour?] at h
  cases hbelow : i.contains (i.middle / step * step) with
  | true =>
    cases habove : i.contains ((i.middle / step + 1) * step) with
    | true =>
      rw [hbelow, habove, Option.some.injEq] at h
      by_cases hhalf : 2 * (i.middle - i.middle / step * step) < step
      · rw [if_pos hhalf] at h
        subst h
        refine ⟨(i.contains_iff _).mp hbelow, Nat.le_succ _, fun k' hk' => ?_⟩
        rcases hside k' hk' with ⟨-, h⟩ | ⟨-, h⟩
        · exact h
        · exact (closer_below hstep hhalf).trans h
      · rw [if_neg hhalf] at h
        subst h
        refine ⟨(i.contains_iff _).mp habove, Nat.le_refl _, fun k' hk' => ?_⟩
        rcases hside k' hk' with ⟨-, h⟩ | ⟨-, h⟩
        · exact (closer_above hstep hhalf).trans h
        · exact h
    | false =>
      rw [hbelow, habove] at h
      cases h
      refine ⟨(i.contains_iff _).mp hbelow, Nat.le_succ _, fun k' hk' => ?_⟩
      rcases hside k' hk' with ⟨-, h⟩ | ⟨h, -⟩
      · exact h
      · rw [habove] at h
        cases h
  | false =>
    cases habove : i.contains ((i.middle / step + 1) * step) with
    | true =>
      rw [hbelow, habove] at h
      cases h
      refine ⟨(i.contains_iff _).mp habove, Nat.le_refl _, fun k' hk' => ?_⟩
      rcases hside k' hk' with ⟨h, -⟩ | ⟨-, h⟩
      · rw [hbelow] at h
        cases h
      · exact h
    | false =>
      rw [hbelow, habove] at h
      cases h

theorem neighbour?_eq_none {step : Nat} (hi : i.Proper) (hstep : 0 < step)
    (h : i.neighbour? step = none) (k : Nat) : ¬i.Covers (k * step : Nat) := by
  intro hk
  rcases neighbour_of_covers hi hstep hk with ⟨hbelow, -⟩ | ⟨habove, -⟩
  · cases habove : i.contains ((i.middle / step + 1) * step) <;>
      simp [neighbour?, hbelow, habove] at h
  · cases hbelow : i.contains (i.middle / step * step) <;>
      simp [neighbour?, hbelow, habove] at h

/-! ## Grids of digits -/

/-- The distance between decimals with as many digits, where the middle is. -/
def step (i : Interval) (n : Nat) : Nat := 10 ^ (i.width - n) * denominator

theorem step_pos (i : Interval) (n : Nat) : 0 < i.step n :=
  Nat.mul_pos (Nat.pow_pos (by decide)) denominator_pos

theorem withDigits?_eq (i : Interval) (n : Nat) : i.withDigits? n =
    (i.neighbour? (i.step n)).map fun digits => ⟨digits, (i.width : Int) - n - 345⟩ := by
  unfold withDigits? step denominator
  rfl

theorem width_eq (i : Interval) :
    i.width = (Nat.toDigits 10 (i.middle / denominator)).length := by
  unfold width denominator
  rfl

/-- The middle is large enough for seventeen digits in front of the point. -/
def Large (i : Interval) : Prop := 10 ^ 16 * denominator ≤ i.middle

theorem large_ofBinary64 {x : Binary64} (hx : x.IsPositive) : (ofBinary64 x).Large := by
  have hraise : 10 ^ 16 * denominator ≤ raise := by decide +kernel
  have hunit : raise ≤ unit x := by
    rw [unit_eq]
    exact Nat.le_mul_of_pos_left _ (Nat.two_pow_pos _)
  have hpos := hx.significand_pos
  rw [Large, middle_eq]
  exact hraise.trans (hunit.trans (Nat.le_mul_of_pos_left _ (by omega)))

namespace Large

variable {n : Nat}

theorem lt_width (hi : i.Large) : 16 < i.width := by
  have hle : 10 ^ 16 ≤ i.middle / denominator := (Nat.le_div_iff_mul_le denominator_pos).mpr hi
  rw [width_eq]
  by_contra h
  exact absurd ((Nat.length_toDigits_le_iff (by decide) (by decide)).mp (Nat.not_lt.mp h))
    (Nat.not_lt.mpr hle)

/-- The decimal of one digit before the middle. -/
theorem step_one_le (hi : i.Large) : i.step 1 ≤ i.middle := by
  have hwidth := hi.lt_width
  have hle : 10 ^ (i.width - 1) ≤ i.middle / denominator := by
    by_contra h
    have hlength := (Nat.length_toDigits_le_iff (by decide) (by omega)).mpr (Nat.not_le.mp h)
    rw [← width_eq] at hlength
    omega
  exact (Nat.le_div_iff_mul_le denominator_pos).mp hle

theorem middle_lt (hi : i.Large) (hn : n ≤ i.width) : i.middle < 10 ^ n * i.step n := by
  have hwidth := hi.lt_width
  have hlt : i.middle / denominator < 10 ^ i.width := by
    rw [← Nat.length_toDigits_le_iff (by decide) (by omega), ← width_eq]
  rw [step, ← Nat.mul_assoc, ← pow_add, Nat.add_sub_cancel' hn]
  exact (Nat.div_lt_iff_lt_mul denominator_pos).mp hlt

theorem pow_mul_step (hn : 0 < n) (hle : n ≤ i.width) :
    10 ^ (n - 1) * i.step n = i.step 1 := by
  have hsum : n - 1 + (i.width - n) = i.width - 1 := by omega
  rw [step, step, ← Nat.mul_assoc, ← pow_add, hsum]

end Large

theorem scale_eq : scale = 10 ^ (345 : Int) * denominator := by
  have hcast : (345 : Int) = (345 : Nat) := rfl
  unfold scale raise
  rw [hcast]
  generalize 345 = e
  rw [zpow_natCast, Nat.pow_eq, Nat.cast_pow, Nat.cast_ofNat]

/-- A decimal with the exponent of a grid is a point of the grid. -/
theorem value_mul_scale {n : Nat} (hn : n ≤ i.width) (k : Nat) :
    value ⟨k, (i.width : Int) - n - 345⟩ * scale = (k * i.step n : Nat) := by
  have hexponent : (i.width : Int) - n - 345 + 345 = (i.width - n : Nat) := by omega
  rw [value, scale_eq, step, mul_assoc, ← mul_assoc (10 ^ _), ← zpow_add₀ (by norm_num),
    hexponent, zpow_natCast]
  push_cast
  ring

/-- Decimals with no more digits are points of the grid from the first power of ten on. -/
theorem exists_multiple {n c : Nat} {e : Int} (hn : 0 < n) (hle : n ≤ i.width) (hc : c < 10 ^ n)
    (h : (i.step 1 : ℚ) ≤ c * 10 ^ e * scale) :
    ∃ k : Nat, c * 10 ^ e * scale = (k * i.step n : Nat) := by
  have hden : (0 : ℚ) < denominator := by exact_mod_cast denominator_pos
  have hscale : (c : ℚ) * 10 ^ e * scale = c * 10 ^ (e + 345) * denominator := by
    rw [scale_eq, zpow_add₀ (by norm_num)]
    ring
  have hlt : (10 : ℚ) ^ ((i.width : Int) - 1) < 10 ^ (n + (e + 345) : Int) := by
    have hc' : (c : ℚ) < 10 ^ (n : Int) := by exact_mod_cast hc
    have hstep : (i.step 1 : ℚ) = 10 ^ ((i.width : Int) - 1) * denominator := by
      have hwidth : (i.width : Int) - 1 = (i.width - 1 : Nat) := by omega
      rw [step, hwidth, zpow_natCast]
      push_cast
      rfl
    rw [hscale, hstep] at h
    calc (10 : ℚ) ^ ((i.width : Int) - 1) ≤ c * 10 ^ (e + 345) := le_of_mul_le_mul_right h hden
      _ < 10 ^ (n : Int) * 10 ^ (e + 345) := by gcongr
      _ = 10 ^ (n + (e + 345) : Int) := (zpow_add₀ (by norm_num) _ _).symm
  have hexponent : (i.width : Int) - 1 < n + (e + 345) :=
    (zpow_lt_zpow_iff_right₀ (by norm_num)).mp hlt
  obtain ⟨j, hj⟩ := Int.eq_ofNat_of_zero_le (show 0 ≤ e + 345 - (i.width - n : Nat) by omega)
  have hsum : e + 345 = (j : Int) + (i.width - n : Nat) := by omega
  refine ⟨c * 10 ^ j, ?_⟩
  rw [hscale, hsum, zpow_add₀ (by norm_num), zpow_natCast, zpow_natCast, step]
  push_cast
  ring

/-! ## Seventeen digits -/

/-- A grid with steps smaller than the interval has a point in it. -/
theorem exists_covers {step : Nat} (hstep : 0 < step) (h : step < i.high - i.low) :
    ∃ k : Nat, i.Covers (k * step : Nat) := by
  have hle := Nat.div_mul_le_self i.low step
  have hlt := Nat.lt_div_mul_add (a := i.low) hstep
  refine ⟨i.low / step + 1, .inl ⟨?_, ?_⟩⟩
  · rw [Nat.add_one_mul]
    exact_mod_cast hlt
  · rw [Nat.add_one_mul]
    exact_mod_cast (by omega)

/-- Sixteen digits are enough to number the significands, so with one more digit the steps are
smaller than the distance between numbers. -/
theorem step_lt {x : Binary64} (hx : x.IsPositive) :
    (ofBinary64 x).step 17 < (ofBinary64 x).high - (ofBinary64 x).low := by
  have hlarge := large_ofBinary64 hx
  have hle : 10 ^ 16 * (ofBinary64 x).step 17 ≤ 4 * x.significand * unit x := by
    rw [← middle_eq, Large.pow_mul_step (n := 17) (by decide) hlarge.lt_width]
    exact hlarge.step_one_le
  have hunit := unit_pos x
  have hpos := hx.significand_pos
  rw [high_eq]
  by_cases h : x.IsSparse
  · have hsig : x.significand = 2 ^ 52 := (hx.of_isSparse h).1
    rw [low_of_isSparse h, ← Nat.sub_mul]
    rw [hsig] at hle ⊢
    omega
  · have hsig : x.significand < 2 * 2 ^ 52 := x.significand_lt
    have hdistance : 4 * x.significand + 2 - (4 * x.significand - 2) = 4 := by omega
    rw [low_of_not_isSparse h, ← Nat.sub_mul, hdistance]
    nlinarith

end Interval

/-! ## The search -/

variable {x : Binary64}

theorem Interval.middle_eq_value (x : Binary64) :
    x.value * Interval.scale = (Interval.ofBinary64 x).middle := by
  have hplace : x.place = x.place - 1 + 1 := by
    have hle : 1 ≤ x.place := Nat.le_max_right _ _
    omega
  rw [Binary.value, Binary.numerator, Interval.middle_eq, Interval.unit_eq, Interval.scale,
    Interval.denominator_eq, Nat.pow_eq, hplace]
  push_cast
  rw [pow_succ _ (_ + 1), pow_succ _ (x.place - 1)]
  field_simp
  ring

/-- What reads as a positive number is not zero. -/
theorem digits_ne_zero {d : Decimal} (hx : x.IsPositive) (h : d.toBinary64 = x) :
    d.digits ≠ 0 := by
  intro hzero
  have hpos := hx.pos
  rw [← h, toBinary64, if_pos hzero, Binary.magnitude_ofMagnitude (by decide)] at hpos
  exact Nat.lt_irrefl _ hpos

theorem significant_pos {d : Decimal} (hx : x.IsPositive) (h : d.toBinary64 = x) :
    0 < d.significant.length :=
  List.length_pos_iff.mpr (proper_significant (digits_ne_zero hx h)).ne_nil

/-- Whether a decimal is shortest depends on the number that it stands for. -/
theorem IsShortest.congr {d d' : Decimal} (hx : x.IsPositive) (h : d.value = d'.value)
    (hd : d.IsShortest x) : d'.IsShortest x := by
  obtain ⟨hdigits, -⟩ := significant_power_eq (digits_ne_zero hx hd.reads) h
  have hreads := hd.reads
  rw [toBinary64_eq_iff hx, h, ← toBinary64_eq_iff hx] at hreads
  exact ⟨hreads, hdigits ▸ hd.fewest, h ▸ hdigits ▸ hd.closest⟩

/-- What reads as the number lies on the grid of as many digits, unless the number is so little
above a power of ten that the power reads as the number too. -/
theorem exists_covers_of_reads {d : Decimal} {n : Nat} (hx : x.IsPositive) (h : d.toBinary64 = x)
    (hlength : d.significant.length ≤ n) (hn : n ≤ 17) :
    (∃ k : Nat, d.value * Interval.scale = (k * (Interval.ofBinary64 x).step n : Nat)) ∨
      (Interval.ofBinary64 x).Covers ((Interval.ofBinary64 x).step 1) ∧
        d.value * Interval.scale ≤ (Interval.ofBinary64 x).step 1 := by
  have hlarge := Interval.large_ofBinary64 hx
  have hwidth := hlarge.lt_width
  have hcovers := (toBinary64_eq_iff hx d).mp h
  have hpos := significant_pos hx h
  obtain ⟨c, hc, e, hvalue⟩ := d.exists_value_eq
  rcases le_total ((Interval.ofBinary64 x).step 1 : ℚ) (d.value * Interval.scale) with hle | hle
  · left
    rw [hvalue] at hle ⊢
    exact Interval.exists_multiple (by omega) (by omega)
      (hc.trans_le (Nat.pow_le_pow_right (by decide) hlength)) hle
  · refine .inr ⟨?_, hle⟩
    exact (Interval.proper_ofBinary64 hx).covers_of_le hcovers hle
      (by exact_mod_cast hlarge.step_one_le)

/-- What the search tries finds nothing only if no decimal with as few digits reads back. -/
theorem withDigits?_eq_none {n : Nat} (hx : x.IsPositive)
    (h : (Interval.ofBinary64 x).withDigits? n = none) (k : Nat) :
    ¬(Interval.ofBinary64 x).Covers (k * (Interval.ofBinary64 x).step n : Nat) := by
  rw [Interval.withDigits?_eq, Option.map_eq_none_iff] at h
  exact Interval.neighbour?_eq_none (Interval.proper_ofBinary64 hx) (Interval.step_pos _ _) h k

/-- What the search finds on a grid. -/
theorem withDigits?_eq_some {n : Nat} {d : Decimal} (hx : x.IsPositive) (hn : 0 < n) (hle : n ≤ 17)
    (h : (Interval.ofBinary64 x).withDigits? n = some d) :
    d.significant.length ≤ n ∧ ∃ k : Nat,
      d.value * Interval.scale = (k * (Interval.ofBinary64 x).step n : Nat) ∧
      (Interval.ofBinary64 x).IsNeighbour ((Interval.ofBinary64 x).step n) k := by
  have hlarge := Interval.large_ofBinary64 hx
  have hwidth : n ≤ (Interval.ofBinary64 x).width := by
    have hlt := hlarge.lt_width
    omega
  rw [Interval.withDigits?_eq, Option.map_eq_some_iff] at h
  obtain ⟨k, hk, rfl⟩ := h
  have hneighbour := Interval.neighbour?_eq_some (Interval.proper_ofBinary64 hx)
    (Interval.step_pos _ _) hk
  refine ⟨?_, k, Interval.value_mul_scale hwidth k, hneighbour⟩
  have hlt := (Nat.div_lt_iff_lt_mul (Interval.step_pos _ n)).mpr (hlarge.middle_lt hwidth)
  rcases Nat.lt_or_ge k (10 ^ n) with hless | hge
  · simpa using length_significant_le k 0 _ hless
  -- The neighbour above may have one digit more, but then all the others are zeros.
  · have heq : k = 1 * 10 ^ n := by
      have hle := hneighbour.le
      omega
    rw [heq]
    exact (length_significant_le (n := 1) 1 n _ (by decide)).trans hn

/-- The search ends with the first number of digits for which there is something to find. -/
theorem exists_shortest (hx : x.IsPositive) : ∃ n < 17,
    (Interval.ofBinary64 x).withDigits? (n + 1) = some (shortest x) ∧
      ∀ m < n, (Interval.ofBinary64 x).withDigits? (m + 1) = none := by
  have hsome : ((List.range 17).findSome? fun n =>
      (Interval.ofBinary64 x).withDigits? (n + 1)).isSome = true := by
    rw [List.findSome?_isSome_iff]
    refine ⟨16, by decide, ?_⟩
    by_contra hnone
    obtain ⟨k, hk⟩ := Interval.exists_covers (Interval.step_pos _ _) (Interval.step_lt hx)
    exact withDigits?_eq_none hx (Option.not_isSome_iff_eq_none.mp hnone) k hk
  obtain ⟨d, hd⟩ := Option.isSome_iff_exists.mp hsome
  have hshortest : shortest x = d := by simp only [shortest, hd, Option.getD_some]
  obtain ⟨before, n, behind, hrange, hfound, hbefore⟩ := List.findSome?_eq_some_iff.mp hd
  rw [List.range_eq_range', List.range'_eq_append_iff] at hrange
  obtain ⟨k, hk, rfl, hbehind⟩ := hrange
  obtain ⟨rest, hrest⟩ : ∃ rest, 17 - k = rest + 1 :=
    ⟨behind.length, by simpa using congrArg List.length hbehind.symm⟩
  rw [hrest, List.range'_succ] at hbehind
  obtain ⟨rfl, -⟩ := List.cons.inj hbehind
  refine ⟨0 + k * 1, by omega, hshortest ▸ hfound, fun m hm => hbefore m ?_⟩
  rw [List.mem_range'_1]
  omega

/-- The search finds the shortest decimal. -/
theorem isShortest_shortest (hx : x.IsPositive) : IsShortest x (shortest x) := by
  obtain ⟨n, hn, hfound, hbefore⟩ := exists_shortest hx
  obtain ⟨hlength, k, hvalue, hneighbour⟩ := withDigits?_eq_some hx (Nat.succ_pos n) hn hfound
  have hone : 0 < n → ¬(Interval.ofBinary64 x).Covers ((Interval.ofBinary64 x).step 1) := by
    intro hpos
    have hnone := withDigits?_eq_none hx (hbefore 0 hpos) 1
    rwa [Nat.one_mul] at hnone
  have hfewest : ∀ d' : Decimal, d'.toBinary64 = x → n + 1 ≤ d'.significant.length := by
    intro d' hd'
    by_contra hless
    have hpos := significant_pos hx hd'
    rcases exists_covers_of_reads hx hd' (Nat.le_refl _) (by omega) with ⟨k', hk'⟩ | ⟨hcovers, -⟩
    · have hnone := hbefore (d'.significant.length - 1) (by omega)
      rw [Nat.sub_add_cancel hpos] at hnone
      exact withDigits?_eq_none hx hnone k' (hk' ▸ (toBinary64_eq_iff hx d').mp hd')
    · exact hone (by omega) hcovers
  refine ⟨?_, fun d' hd' => hlength.trans (hfewest d' hd'), fun d' hd' hlength' => ?_⟩
  · rw [toBinary64_eq_iff hx, hvalue]
    exact hneighbour.covers
  · rw [← Closer.mul_iff Interval.scale_pos, Interval.middle_eq_value, hvalue]
    rcases exists_covers_of_reads hx hd' (hlength'.trans_le hlength) hn with
      ⟨k', hk'⟩ | ⟨hcovers, hle⟩
    · rw [hk']
      exact hneighbour.closest k' (hk' ▸ (toBinary64_eq_iff hx d').mp hd')
    -- Below the power of ten the decimals are denser, but then the power itself is closer.
    · obtain rfl : n = 0 := by
        by_contra hne
        exact hone (by omega) hcovers
      have hpower := hneighbour.closest 1 (by rwa [Nat.one_mul])
      rw [Nat.one_mul] at hpower
      refine hpower.trans (.of_le hle ?_)
      exact_mod_cast (Interval.large_ofBinary64 hx).step_one_le

/-- Four other decimals of one digit read as the least positive number too. -/
example : shortest (.ofMagnitude false 1) = ⟨5, -324⟩ := by decide +kernel

end TinyC.Decimal
