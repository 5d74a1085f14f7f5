import TinyC.Proofs.Numeral.Digits
import TinyC.Proofs.Numeral.Rounding

/-!
# Significant digits

A decimal other than zero is given by its significant digits, from the first to the last one that is
not zero, and by the power of ten of the first. Main statement: decimals for the same number have
the same ones.
-/

namespace TinyC.Decimal

/-! ## Significant digits -/

/-- The digits up to the last one that is not zero. -/
def significant (d : Decimal) : List Char := (Nat.toDigits 10 d.digits).rdropWhile (· = '0')

theorem exists_zeros (d : Decimal) :
    ∃ k, Nat.toDigits 10 d.digits = d.significant ++ List.replicate k '0' := by
  have hzeros : ∀ c ∈ (Nat.toDigits 10 d.digits).rtakeWhile (· = '0'), c = '0' := fun c hc => by
    simpa using List.mem_rtakeWhile_imp hc
  have hsplit : d.significant ++ (Nat.toDigits 10 d.digits).rtakeWhile (· = '0') =
      Nat.toDigits 10 d.digits := List.rdropWhile_append_rtakeWhile
  refine ⟨((Nat.toDigits 10 d.digits).rtakeWhile (· = '0')).length, ?_⟩
  rw [← List.eq_replicate_length.mpr hzeros, hsplit]

theorem rdropWhile_append_zeros (ds : List Char) (k : Nat) :
    (ds ++ List.replicate k '0').rdropWhile (· = '0') = ds.rdropWhile (· = '0') := by
  induction k with
  | zero => rw [List.replicate_zero, List.append_nil]
  | succ k ih =>
    rw [List.replicate_succ', ← List.append_assoc, List.rdropWhile_concat_pos _ _ _ (by simp), ih]

theorem isDigit_of_mem_significant {d : Decimal} {c : Char} (h : c ∈ d.significant) :
    isDigit c = true :=
  isDigit_of_mem_toDigits ((List.rdropWhile_prefix _ _).subset h)

theorem digits_eq_significant {d : Decimal} {k : Nat}
    (hk : Nat.toDigits 10 d.digits = d.significant ++ List.replicate k '0') :
    d.digits = ofDigits 10 d.significant * 10 ^ k := by
  have hvalue := ofDigits_toDigits d.digits
  rw [hk, ofDigits_append, ofDigits_replicate_zero, List.length_replicate, Nat.add_zero] at hvalue
  exact hvalue.symm

/-- The significant digits and a power of ten make up the number. -/
theorem exists_value_eq (d : Decimal) :
    ∃ c : Nat, c < 10 ^ d.significant.length ∧ ∃ e : Int, d.value = c * 10 ^ e := by
  obtain ⟨k, hk⟩ := d.exists_zeros
  refine ⟨ofDigits 10 d.significant, ofDigits_lt fun c => isDigit_of_mem_significant,
    d.exponent + k, ?_⟩
  rw [value, digits_eq_significant hk, zpow_add₀ (by norm_num), zpow_natCast]
  push_cast
  ring

theorem significant_mul_pow {n : Nat} (hn : 0 < n) (k : Nat) (e e' : Int) :
    significant ⟨n * 10 ^ k, e⟩ = significant ⟨n, e'⟩ := by
  simp only [significant]
  rw [toDigits_mul_pow hn, rdropWhile_append_zeros]

theorem length_significant_le {n : Nat} (c k : Nat) (e : Int) (hc : c < 10 ^ n) :
    (significant ⟨c * 10 ^ k, e⟩).length ≤ n := by
  rcases Nat.eq_zero_or_pos c with rfl | hpos
  · simp [significant, List.rdropWhile_singleton]
  · have hn : 0 < n := by
      by_contra h0
      rw [Nat.le_zero.mp (Nat.not_lt.mp h0), pow_zero] at hc
      omega
    rw [significant_mul_pow hpos k e 0]
    calc _ ≤ (Nat.toDigits 10 c).length := (List.rdropWhile_prefix _ _).length_le
      _ ≤ n := (Nat.length_toDigits_le_iff (by decide) hn).mpr hc

/-! ## Powers -/

/-- Digits that neither begin nor end with a zero. -/
structure Proper (ds : List Char) : Prop where
  ne_nil : ds ≠ []
  digits : ∀ d ∈ ds, isDigit d = true
  head : ds.head? ≠ some '0'
  last : ds.getLast? ≠ some '0'

/-- The power of ten of the first digit. -/
def power (d : Decimal) : Int := d.exponent + (Nat.toDigits 10 d.digits).length - 1

/-- The number with these digits, the first of which has this power of ten. -/
def ofSignificant (ds : List Char) (power : Int) : Decimal :=
  ⟨ofDigits 10 ds, power + 1 - ds.length⟩

theorem proper_significant {d : Decimal} (hd : d.digits ≠ 0) : Proper d.significant := by
  obtain ⟨k, hk⟩ := d.exists_zeros
  have hne : d.significant ≠ [] := by
    intro hnil
    rw [digits_eq_significant hk, hnil, ofDigits_nil, Nat.zero_mul] at hd
    exact hd rfl
  refine ⟨hne, fun c => isDigit_of_mem_significant, fun hhead => ?_, fun hlast => ?_⟩
  · obtain ⟨ds, hds⟩ := List.head?_eq_some_iff.mp hhead
    rw [hds, List.cons_append] at hk
    have hnil := eq_nil_of_toDigits hk
    rw [hnil] at hk
    have hzero := ofDigits_toDigits d.digits
    rw [hk] at hzero
    exact hd hzero.symm
  · have hnot := List.rdropWhile_last_not _ _ hne
    rw [List.getLast?_eq_some_getLast hne, Option.some.injEq] at hlast
    exact hnot (decide_eq_true hlast)

theorem value_ofSignificant (d : Decimal) :
    (ofSignificant d.significant d.power).value = d.value := by
  obtain ⟨k, hk⟩ := d.exists_zeros
  have hexponent : d.power + 1 - d.significant.length = d.exponent + k := by
    rw [power, hk, List.length_append, List.length_replicate]
    push_cast
    ring
  rw [value, value, ofSignificant, hexponent, zpow_add₀ (by norm_num), zpow_natCast]
  conv_rhs => rw [digits_eq_significant hk]
  push_cast
  ring

/-- Of two decimals for the same number one has more zeros at its end. -/
theorem digits_eq_of_value {d d' : Decimal} (h : d.value = d'.value) {k : Nat}
    (hk : d'.exponent = d.exponent + k) : d.digits = d'.digits * 10 ^ k := by
  have hpow : (10 : ℚ) ^ d.exponent ≠ 0 := by positivity
  rw [value, value, hk, zpow_add₀ (by norm_num), zpow_natCast] at h
  have heq : (d.digits : ℚ) = d'.digits * 10 ^ k := by
    apply mul_right_cancel₀ hpow
    rw [h]
    ring
  exact_mod_cast heq

theorem significant_power_eq_of_le {d d' : Decimal} (hd : d.digits ≠ 0) (h : d.value = d'.value)
    (hle : d.exponent ≤ d'.exponent) :
    d.significant = d'.significant ∧ d.power = d'.power := by
  obtain ⟨k, hk⟩ := Int.le.dest hle
  have hdigits := digits_eq_of_value h hk.symm
  have hpos : 0 < d'.digits := by
    by_contra hzero
    rw [Nat.le_zero.mp (Nat.not_lt.mp hzero), Nat.zero_mul] at hdigits
    exact hd hdigits
  have htext : Nat.toDigits 10 d.digits = Nat.toDigits 10 d'.digits ++ List.replicate k '0' := by
    rw [hdigits, toDigits_mul_pow hpos]
  constructor
  · rw [significant, significant, htext, rdropWhile_append_zeros]
  · rw [power, power, htext, ← hk, List.length_append, List.length_replicate]
    push_cast
    ring

/-- A number has one string of significant digits and one power. -/
theorem significant_power_eq {d d' : Decimal} (hd : d.digits ≠ 0) (h : d.value = d'.value) :
    d.significant = d'.significant ∧ d.power = d'.power := by
  rcases Int.le_total d.exponent d'.exponent with hle | hle
  · exact significant_power_eq_of_le hd h hle
  · have hd' : d'.digits ≠ 0 := by
      obtain ⟨k, hk⟩ := Int.le.dest hle
      have hdigits := digits_eq_of_value h.symm hk.symm
      rw [hdigits]
      exact Nat.mul_ne_zero hd (Nat.pow_pos (by decide)).ne'
    exact (significant_power_eq_of_le hd' h.symm hle).imp Eq.symm Eq.symm

namespace Proper

variable {ds : List Char}

theorem exists_cons (hds : Proper ds) :
    ∃ d ds', isDigit d = true ∧ d ≠ '0' ∧ ds = d :: ds' := by
  obtain ⟨d, ds', rfl⟩ := List.exists_cons_of_ne_nil hds.ne_nil
  refine ⟨d, ds', hds.digits d List.mem_cons_self, ?_, rfl⟩
  rintro rfl
  exact hds.head rfl

theorem pow_le (hds : Proper ds) : 10 ^ (ds.length - 1) ≤ ofDigits 10 ds := by
  obtain ⟨d, ds', hd, hne, rfl⟩ := hds.exists_cons
  exact le_ofDigits hd hne

theorem ofDigits_ne_zero (hds : Proper ds) : ofDigits 10 ds ≠ 0 := by
  have hle := hds.pow_le
  have hpos : 0 < 10 ^ (ds.length - 1) := Nat.pow_pos (by decide)
  omega

theorem significant_power (hds : Proper ds) (power : Int) :
    (ofSignificant ds power).significant = ds ∧ (ofSignificant ds power).power = power := by
  have htext : Nat.toDigits 10 (ofDigits 10 ds) = ds :=
    toDigits_ofDigits hds.ne_nil hds.digits fun h => absurd h hds.head
  constructor
  · rw [significant, ofSignificant, htext, List.rdropWhile_eq_self_iff]
    intro hne hlast
    apply hds.last
    rw [List.getLast?_eq_some_getLast hne, of_decide_eq_true hlast]
  · rw [Decimal.power, ofSignificant, htext]
    ring

/-- The power tells the size of the number. -/
theorem bounds (hds : Proper ds) (power : Int) :
    10 ^ power ≤ (ofSignificant ds power).value ∧
      (ofSignificant ds power).value < 10 ^ (power + 1) := by
  have hlength : 1 ≤ ds.length := List.length_pos_iff.mpr hds.ne_nil
  have hlow : (10 : ℚ) ^ ((ds.length : Int) - 1) ≤ ofDigits 10 ds := by
    have hcast : (ds.length : Int) - 1 = (ds.length - 1 : Nat) := by omega
    rw [hcast, zpow_natCast]
    exact_mod_cast hds.pow_le
  have hhigh : (ofDigits 10 ds : ℚ) < 10 ^ (ds.length : Int) := by
    rw [zpow_natCast]
    exact_mod_cast ofDigits_lt hds.digits
  constructor
  · calc (10 : ℚ) ^ power = 10 ^ ((ds.length : Int) - 1) * 10 ^ (power + 1 - ds.length) := by
          rw [← zpow_add₀ (by norm_num)]
          congr 1
          ring
      _ ≤ ofDigits 10 ds * 10 ^ (power + 1 - ds.length) := by gcongr
  · calc (ofDigits 10 ds : ℚ) * 10 ^ (power + 1 - ds.length)
        < 10 ^ (ds.length : Int) * 10 ^ (power + 1 - ds.length) := by gcongr
      _ = 10 ^ (power + 1) := by
          rw [← zpow_add₀ (by norm_num)]
          congr 1
          ring

end Proper

end TinyC.Decimal
