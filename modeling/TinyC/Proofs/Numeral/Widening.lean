import TinyC.Proofs.Numeral.Arithmetic

/-!
# Widening loses nothing

A pattern is its sign, its exponent and its fraction. Widening moves the exponent and shifts the
fraction to the left, so both can be read off the wider pattern. A number too small for a leading
digit gets one, and the exponent then says which digit that was. Main statement: the wider pattern
determines the pattern, if what is not a number is quietly so, as it is after every conversion.
-/

namespace TinyC.Binary

/-! ## Quiet patterns -/

variable {f : Format}

/-- The pattern is a number, or it is quietly not a number. -/
def Quiet (x : Binary f) : Prop := x.isNaN = true → f.quietUnit ≤ x.fraction

theorem Quiet.of_isNaN {x : Binary f} (h : x.isNaN = false) : x.Quiet := by
  intro hnan
  rw [h] at hnan
  cases hnan

/-- What is put above the payload of a quiet pattern leaves the payload below the exponent. -/
theorem hasFields_quietNaN (negative : Bool) {payload : Nat} (hbits : 0 < f.fractionBits)
    (h : payload < f.exponentUnit) :
    (quietNaN negative payload : Binary f).HasFields negative f.topExponent
      (if payload < f.quietUnit then payload + f.quietUnit else payload) := by
  have htwice : f.quietUnit + f.quietUnit = f.exponentUnit := by
    simp only [Format.quietUnit, Format.exponentUnit, Nat.pow_eq]
    rw [← Nat.two_mul, ← Nat.pow_succ', Nat.succ_eq_add_one, Nat.sub_add_cancel hbits]
  apply hasFields_ofMagnitude negative (Nat.le_refl _)
  split <;> omega

theorem quiet_quietNaN (negative : Bool) {payload : Nat} (hbits : 0 < f.fractionBits)
    (h : payload < f.exponentUnit) : (quietNaN negative payload : Binary f).Quiet := by
  intro _
  rw [(hasFields_quietNaN negative hbits h).fraction]
  split <;> omega

theorem quiet_narrow (x : Binary64) : (x.narrow : Binary32).Quiet := by
  cases hnan : x.isNaN with
  | true =>
    rw [narrow, if_pos hnan]
    refine quiet_quietNaN _ (by decide) ?_
    exact Nat.div_lt_of_lt_mul x.fraction_lt
  | false => exact .of_isNaN (isNaN_narrow hnan)

theorem quiet_ofInt (n : Int) : (ofInt n : Binary32).Quiet := .of_isNaN (isNaN_ofInt n)

/-! ## Widening -/

/-- How the fields of a number show in the wider format. -/
inductive Widened (x : Binary32) (exponent fraction : Nat) : Prop
  | special : x.exponent = 255 → exponent = 2047 → fraction = x.fraction * 2 ^ 29 →
    Widened x exponent fraction
  | normal : 0 < x.exponent → x.exponent < 255 → exponent = x.exponent + 896 →
    fraction = x.fraction * 2 ^ 29 → Widened x exponent fraction
  | subnormal (k : Nat) : x.exponent = 0 → k ≤ 22 → 2 ^ k ≤ x.fraction → exponent = k + 874 →
    fraction = (x.fraction - 2 ^ k) * 2 ^ (52 - k) → Widened x exponent fraction
  | zero : x.exponent = 0 → x.fraction = 0 → exponent = 0 → fraction = 0 →
    Widened x exponent fraction

/-- The fields in the wider format determine the fields. -/
theorem Widened.unique {x y : Binary32} {exponent fraction : Nat}
    (hx : x.Widened exponent fraction) (hy : y.Widened exponent fraction) :
    x.exponent = y.exponent ∧ x.fraction = y.fraction := by
  -- Each kind of numbers has exponents of its own.
  cases hx with
  | special hxe he hf =>
    cases hy with
    | _ => omega
  | normal hpos hlt he hf =>
    cases hy with
    | _ => omega
  | subnormal k hxe hk hle he hf =>
    cases hy with
    | subnormal k' hye hk' hle' he' hf' =>
      -- The exponent says which digit leads, and the fraction what follows it.
      obtain rfl : k = k' := by omega
      have hrest := Nat.eq_of_mul_eq_mul_right (Nat.two_pow_pos _) (hf.symm.trans hf')
      omega
    | _ => omega
  | zero hxe hxf he hf =>
    cases hy with
    | _ => omega

/-- What follows the leading digit of a number below the normal ones fits behind a new exponent. -/
theorem subnormal_lt {n : Nat} (hn : n ≠ 0) :
    (n - 2 ^ n.log2) * 2 ^ (52 - n.log2) < 2 ^ n.log2 * 2 ^ (52 - n.log2) := by
  have hlt := Nat.lt_log2_self (n := n)
  have hle := Nat.log2_self_le hn
  rw [Nat.pow_succ] at hlt
  exact Nat.mul_lt_mul_of_pos_right (by omega) (Nat.two_pow_pos _)

theorem widen_eq {x : Binary32} (hx : x.Quiet) : ∃ exponent fraction : Nat,
    exponent ≤ 2047 ∧ fraction < 2 ^ 52 ∧ x.Widened exponent fraction ∧
    (x.widen : Binary64) = ofMagnitude x.isNegative (exponent * 2 ^ 52 + fraction) := by
  have hfraction : x.fraction < 2 ^ 23 := x.fraction_lt
  have hexponent : x.exponent ≤ 255 := x.exponent_le
  have hshift : x.fraction * 2 ^ 29 < 2 ^ 52 := by omega
  by_cases htop : x.exponent = 255
  · refine ⟨2047, x.fraction * 2 ^ 29, Nat.le_refl _, hshift, .special htop rfl rfl, ?_⟩
    by_cases hzero : x.fraction = 0
    · have hnan : x.isNaN = false := by simp [isNaN, hzero]
      have hinf : x.isInfinite = true := by simpa [isInfinite, hzero] using! htop
      simp only [widen, hnan, hinf, Bool.false_eq_true, if_false, if_true, hzero]
      rfl
    · have hnan : x.isNaN = true := by simpa [isNaN, hzero] using! htop
      -- A quiet payload has its highest digit already.
      have hquiet : 2 ^ 22 ≤ x.fraction := hx hnan
      have hge : Format.binary64.quietUnit ≤ x.fraction * 2 ^ 29 := by
        change 2 ^ 51 ≤ x.fraction * 2 ^ 29
        omega
      rw [widen, if_pos hnan, quietNaN]
      exact congrArg _ (congrArg _ (if_neg (Nat.not_lt.mpr hge)))
  · have hnan : x.isNaN = false := by simpa [isNaN] using! fun h => absurd h htop
    have hinf : x.isInfinite = false := by simpa [isInfinite] using! fun h => absurd h htop
    simp only [widen, hnan, hinf, Bool.false_eq_true, if_false]
    by_cases hpos : x.exponent = 0
    · rw [if_neg (not_not.mpr hpos)]
      by_cases hzero : x.fraction = 0
      · rw [if_pos hzero]
        exact ⟨0, 0, by decide, by decide, .zero hpos hzero rfl rfl, rfl⟩
      · rw [if_neg hzero]
        have hlog : x.fraction.log2 ≤ 22 := Nat.le_of_lt_succ ((Nat.log2_lt hzero).mpr hfraction)
        have hlt := subnormal_lt hzero
        rw [← pow_add, Nat.add_sub_cancel' (by omega)] at hlt
        exact ⟨_, _, by omega, hlt, .subnormal _ hpos hlog (Nat.log2_self_le hzero) rfl rfl, rfl⟩
    · rw [if_pos hpos]
      exact ⟨_, _, by omega, hshift, .normal (by omega) (by omega) rfl rfl, rfl⟩

theorem hasFields_widen {x : Binary32} (hx : x.Quiet) : ∃ exponent fraction : Nat,
    x.Widened exponent fraction ∧
    (x.widen : Binary64).HasFields x.isNegative exponent fraction := by
  obtain ⟨exponent, fraction, he, hf, hwidened, heq⟩ := widen_eq hx
  rw [heq]
  exact ⟨_, _, hwidened, hasFields_ofMagnitude (f := .binary64) _ he hf⟩

/-- Quiet patterns that widen to the same pattern are the same. -/
theorem widen_inj {x y : Binary32} (hx : x.Quiet) (hy : y.Quiet)
    (h : (x.widen : Binary64) = y.widen) : x = y := by
  obtain ⟨e, m, hwidened, hfields⟩ := hasFields_widen hx
  obtain ⟨e', m', hwidened', hfields'⟩ := hasFields_widen hy
  rw [← h] at hfields'
  obtain rfl := hfields.exponent.symm.trans hfields'.exponent
  obtain rfl := hfields.fraction.symm.trans hfields'.fraction
  obtain ⟨hexponent, hfraction⟩ := hwidened.unique hwidened'
  exact eq_of_fields (hfields.sign.symm.trans hfields'.sign) hexponent hfraction

end TinyC.Binary
