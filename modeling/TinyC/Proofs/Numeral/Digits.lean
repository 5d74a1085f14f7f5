import Mathlib
import TinyC.Numeral.Integer

/-!
# Strings of decimal digits

A number is written by its digits without a zero in front, and read from its digits with any zeros
in front. Zeros behind the digits multiply by powers of ten.
-/

namespace TinyC

/-! ## Digits -/

theorem isDigit_eq (c : Char) : isDigit c = c.isDigit := rfl

theorem digitValue_of_isDigit {c : Char} (h : isDigit c = true) :
    digitValue c = c.toNat - '0'.toNat := by
  simp [digitValue, h]

theorem digitValue_lt_of_isDigit {c : Char} (h : isDigit c = true) : digitValue c < 10 := by
  have hzero : '0'.toNat = 48 := rfl
  have hnine : '9'.toNat = 57 := rfl
  rw [digitValue_of_isDigit h]
  rw [isDigit_eq, Char.isDigit_iff_toNat] at h
  omega

theorem digitChar_digitValue {d : Char} (h : isDigit d = true) : (digitValue d).digitChar = d := by
  have hlt := digitValue_lt_of_isDigit h
  have hzero : '0'.toNat = 48 := rfl
  apply Char.toNat_inj.mp
  rw [Nat.toNat_digitChar_of_lt_ten hlt, digitValue_of_isDigit h]
  rw [isDigit_eq, Char.isDigit_iff_toNat] at h
  omega

/-! ## Reading digits -/

/-- Digits in front count as many times more as there are digits behind. -/
theorem ofDigits_append (base : Nat) (as bs : List Char) :
    ofDigits base (as ++ bs) = ofDigits base as * base ^ bs.length + ofDigits base bs := by
  induction bs using List.reverseRecOn with
  | nil => simp
  | append_singleton bs b ih =>
    rw [← List.append_assoc, ofDigits_append_singleton, ofDigits_append_singleton, ih,
      List.length_append, List.length_singleton, pow_succ]
    ring

@[simp] theorem ofDigits_zero_cons (base : Nat) (cs : List Char) :
    ofDigits base ('0' :: cs) = ofDigits base cs := rfl

@[simp] theorem ofDigits_replicate_zero (base k : Nat) :
    ofDigits base (List.replicate k '0') = 0 := by
  induction k with
  | zero => rfl
  | succ k ih => rw [List.replicate_succ, ofDigits_zero_cons, ih]

section

variable {ds : List Char}

theorem ofDigits_lt (hds : ∀ d ∈ ds, isDigit d = true) : ofDigits 10 ds < 10 ^ ds.length := by
  induction ds using List.reverseRecOn with
  | nil => simp
  | append_singleton ds d ih =>
    obtain ⟨hds, hd⟩ := List.forall_mem_append.mp hds
    have hlt := digitValue_lt_of_isDigit (hd d (List.mem_singleton_self d))
    have ih := ih hds
    rw [ofDigits_append_singleton, List.length_append, List.length_singleton, pow_succ]
    omega

theorem le_ofDigits {d : Char} (hd : isDigit d = true) (hzero : d ≠ '0') :
    10 ^ ds.length ≤ ofDigits 10 (d :: ds) := by
  have hpos : 0 < digitValue d := by
    by_contra hle
    have heq := digitChar_digitValue hd
    rw [Nat.le_zero.mp (Nat.not_lt.mp hle)] at heq
    exact hzero heq.symm
  have hsingle : ofDigits 10 [d] = digitValue d := by simp [ofDigits]
  rw [← List.singleton_append, ofDigits_append, hsingle]
  exact Nat.le_add_right_of_le (Nat.le_mul_of_pos_left _ hpos)

/-- Only zeros spell zero. -/
theorem eq_zero_of_ofDigits (hds : ∀ d ∈ ds, isDigit d = true) (h : ofDigits 10 ds = 0) :
    ∀ d ∈ ds, d = '0' := by
  induction ds with
  | nil => exact List.forall_mem_nil _
  | cons d ds ih =>
    obtain ⟨hd, htail⟩ := List.forall_mem_cons.mp hds
    have hzero : d = '0' := by
      by_contra hne
      have hle : 10 ^ ds.length ≤ ofDigits 10 (d :: ds) := le_ofDigits hd hne
      rw [h] at hle
      exact absurd hle (Nat.not_le.mpr (Nat.pow_pos (by decide)))
    subst hzero
    exact List.forall_mem_cons.mpr ⟨rfl, ih htail h⟩

/-! ## Writing digits -/

theorem isDigit_of_mem_toDigits {n : Nat} {c : Char} (h : c ∈ Nat.toDigits 10 n) :
    isDigit c = true := by
  rw [isDigit_eq]
  exact Nat.isDigit_of_mem_toDigits (by decide) (by decide) h

theorem ofDigits_toDigits (n : Nat) : ofDigits 10 (Nat.toDigits 10 n) = n := by
  have hfold : ofDigits 10 (Nat.toDigits 10 n) = Nat.ofDigitChars 10 (Nat.toDigits 10 n) 0 := by
    rw [ofDigits, Nat.ofDigitChars_eq_foldl]
    refine List.foldl_ext _ _ _ fun m c hc => ?_
    rw [digitValue_of_isDigit (isDigit_of_mem_toDigits hc)]
  rw [hfold, Nat.ofDigitChars_ten_toDigits]

/-- Only the number zero starts with the digit zero. -/
theorem eq_nil_of_toDigits {n : Nat} {ds : List Char} (h : Nat.toDigits 10 n = '0' :: ds) :
    ds = [] := by
  induction n using Nat.strong_induction_on generalizing ds with
  | _ n ih =>
    rw [Nat.toDigits_eq_if (by decide)] at h
    split at h
    · exact (List.cons.inj h).2.symm
    · rename_i hn
      -- The first digit is that of a tenth of the number, which is then zero.
      obtain ⟨d, ds', hds⟩ :=
        List.exists_cons_of_ne_nil (Nat.toDigits_ne_nil (n := n / 10) (b := 10))
      rw [hds] at h
      obtain ⟨rfl, -⟩ := List.cons.inj h
      have hvalue := ofDigits_toDigits (n / 10)
      rw [hds, ih (n / 10) (by omega) hds] at hvalue
      have hzero : ofDigits 10 ['0'] = 0 := rfl
      omega

/-- Digits without a leading zero are those of the number that they spell. -/
theorem toDigits_ofDigits (hne : ds ≠ []) (hds : ∀ d ∈ ds, isDigit d = true)
    (hzero : ds.head? = some '0' → ds = ['0']) : Nat.toDigits 10 (ofDigits 10 ds) = ds := by
  induction ds using List.reverseRecOn with
  | nil => exact absurd rfl hne
  | append_singleton ds d ih =>
    obtain ⟨hds, hd⟩ := List.forall_mem_append.mp hds
    have hd : isDigit d = true := hd d (List.mem_singleton_self d)
    have hlt := digitValue_lt_of_isDigit hd
    rw [ofDigits_append_singleton]
    cases ds with
    | nil => simp [Nat.toDigits_of_lt_base hlt, digitChar_digitValue hd]
    | cons c ds =>
      have hhead : c ≠ '0' := by
        rintro rfl
        simpa using hzero rfl
      have hdigits := ih (by simp) hds (by simp [hhead])
      have hc : isDigit c = true := hds c List.mem_cons_self
      have hpos : 0 < ofDigits 10 (c :: ds) :=
        Nat.lt_of_lt_of_le (Nat.pow_pos (by decide)) (le_ofDigits hc hhead)
      rw [← Nat.toDigits_append_toDigits (by decide) hpos hlt, hdigits,
        Nat.toDigits_of_lt_base hlt, digitChar_digitValue hd]

theorem toDigits_mul_pow {n : Nat} (hn : 0 < n) (k : Nat) :
    Nat.toDigits 10 (n * 10 ^ k) = Nat.toDigits 10 n ++ List.replicate k '0' := by
  induction k with
  | zero => simp
  | succ k ih =>
    have hpos : 0 < n * 10 ^ k := Nat.mul_pos hn (Nat.pow_pos (by decide))
    rw [List.replicate_succ', ← List.append_assoc, ← ih, ← Nat.toDigits_zero 10,
      Nat.toDigits_append_toDigits (by decide) hpos (by decide), Nat.add_zero, pow_succ']
    congr 1
    ring

end

end TinyC
