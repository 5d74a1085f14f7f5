import TinyC.Proofs.Token.Constants

/-!
# Values of integer constants

An integer constant stands for the number that its digits spell in its base, if every digit belongs
to the base and the number has no more than 64 bits. If not, the constant is reported. The suffix
does not matter.
-/

namespace TinyC

open Lexeme

/-! ## Numbers that digits spell -/

/-- The character is the digit of a number in a base. Letters may be small or large. -/
def IsNumeral (base : Nat) (c : Char) (n : Nat) : Prop :=
  n < base ∧ (c = n.digitChar ∨ c = n.digitChar.toUpper)

/-- The characters are digits of the base, and the number is their value by position. -/
def Spells (base : Nat) (cs : List Char) (n : Nat) : Prop :=
  ∃ ns : List Nat, List.Forall₂ (IsNumeral base) cs ns ∧ n = Nat.ofDigits base ns.reverse

theorem IsNumeral.digitValue_eq {base : Nat} (hbase : base ≤ 16) {c : Char} {n : Nat}
    (h : IsNumeral base c n) : digitValue c = n := by
  have hvalue : ∀ n < 16, digitValue n.digitChar = n ∧ digitValue n.digitChar.toUpper = n := by
    decide
  obtain ⟨hn, rfl | rfl⟩ := h
  · exact (hvalue n (by omega)).1
  · exact (hvalue n (by omega)).2

/-- Every hexadecimal digit is the digit of a number. -/
theorem exists_isNumeral {c : Char} (h : isHexDigit c = true) : ∃ n, IsNumeral 16 c n := by
  have hrange : 48 ≤ c.toNat ∧ c.toNat ≤ 57 ∨ 97 ≤ c.toNat ∧ c.toNat ≤ 102 ∨
      65 ≤ c.toNat ∧ c.toNat ≤ 70 := by
    simpa [isHexDigit, isDigit, Char.le_def, UInt32.le_iff_toNat_le, or_assoc] using h
  have hdigit : ∀ k < 10, Char.ofNat (48 + k) = k.digitChar := by decide
  have hsmall : ∀ k < 6, Char.ofNat (97 + k) = (10 + k).digitChar := by decide
  have hlarge : ∀ k < 6, Char.ofNat (65 + k) = (10 + k).digitChar.toUpper := by decide
  rw [← Char.ofNat_toNat c]
  rcases hrange with ⟨hle, hlt⟩ | ⟨hle, hlt⟩ | ⟨hle, hlt⟩
  · obtain ⟨k, hk⟩ := Nat.exists_eq_add_of_le hle
    exact ⟨k, by omega, .inl (hk ▸ hdigit k (by omega))⟩
  · obtain ⟨k, hk⟩ := Nat.exists_eq_add_of_le hle
    exact ⟨10 + k, by omega, .inl (hk ▸ hsmall k (by omega))⟩
  · obtain ⟨k, hk⟩ := Nat.exists_eq_add_of_le hle
    exact ⟨10 + k, by omega, .inr (hk ▸ hlarge k (by omega))⟩

theorem isNumeral_iff {base : Nat} (hbase : base ≤ 16) {c : Char} (hc : isHexDigit c = true)
    {n : Nat} : IsNumeral base c n ↔ digitValue c < base ∧ n = digitValue c := by
  constructor
  · intro h
    rw [h.digitValue_eq hbase]
    exact ⟨h.1, rfl⟩
  · rintro ⟨hn, rfl⟩
    obtain ⟨n, h⟩ := exists_isNumeral hc
    rw [h.digitValue_eq (Nat.le_refl _)] at hn ⊢
    exact ⟨hn, h.2⟩

theorem ofDigits_eq (base : Nat) (cs : List Char) :
    ofDigits base cs = Nat.ofDigits base (cs.map digitValue).reverse := by
  induction cs using List.reverseRecOn with
  | nil => rfl
  | append_singleton cs c ih =>
    rw [ofDigits_append_singleton, ih, List.map_append, List.reverse_append]
    simp [Nat.ofDigits_cons, Nat.add_comm]

theorem forall₂_isNumeral_iff {base : Nat} (hbase : base ≤ 16) {cs : List Char}
    (hcs : ∀ c ∈ cs, isHexDigit c = true) {ns : List Nat} :
    List.Forall₂ (IsNumeral base) cs ns ↔
      (∀ c ∈ cs, digitValue c < base) ∧ ns = cs.map digitValue := by
  induction cs generalizing ns with
  | nil => simp
  | cons c cs ih =>
    obtain ⟨hc, hcs⟩ := List.forall_mem_cons.mp hcs
    rw [List.forall₂_cons_left_iff, List.forall_mem_cons, List.map_cons]
    constructor
    · rintro ⟨n, ns, hn, hns, rfl⟩
      obtain ⟨hlt, rfl⟩ := (isNumeral_iff hbase hc).mp hn
      obtain ⟨hall, rfl⟩ := (ih hcs).mp hns
      exact ⟨⟨hlt, hall⟩, rfl⟩
    · rintro ⟨⟨hlt, hall⟩, rfl⟩
      exact ⟨_, _, (isNumeral_iff hbase hc).mpr ⟨hlt, rfl⟩, (ih hcs).mpr ⟨hall, rfl⟩, rfl⟩

theorem ofDigits?_eq_some_iff {base : Nat} (hbase : base ≤ 16) {cs : List Char}
    (hcs : ∀ c ∈ cs, isHexDigit c = true) {n : Nat} :
    ofDigits? base cs = some n ↔ Spells base cs n := by
  have hvalue : Spells base cs n ↔ (∀ c ∈ cs, digitValue c < base) ∧ n = ofDigits base cs := by
    simp only [Spells, forall₂_isNumeral_iff hbase hcs, ofDigits_eq, and_assoc, exists_and_left,
      exists_eq_left]
  rw [hvalue, ofDigits?]
  split
  · rename_i hall
    have hall : ∀ c ∈ cs, digitValue c < base := by simpa using hall
    rw [Option.some.injEq, eq_comm, and_iff_right hall]
  · rename_i hall
    have hall : ¬∀ c ∈ cs, digitValue c < base := by simpa using hall
    simp [hall]

/-! ## Integer constants -/

/-- The base of an integer constant. -/
def radix (body : List Char) : Nat :=
  if body[1]? = some 'x' ∨ body[1]? = some 'X' then 16
  else if body[0]? = some '0' ∧ 1 < body.length then 8
  else 10

/-- The digits of an integer constant, without the mark of its base. -/
def numerals (body : List Char) : List Char := if radix body = 16 then body.drop 2 else body

theorem ofDigits?_zero_cons (base : Nat) (hbase : 0 < base) (cs : List Char) :
    ofDigits? base ('0' :: cs) = ofDigits? base cs := by
  have hzero : digitValue '0' = 0 := rfl
  simp [ofDigits?, ofDigits, hzero, hbase]

theorem radix_le (body : List Char) : radix body ≤ 16 := by
  unfold radix
  split
  · exact Nat.le_refl _
  · split <;> decide

theorem hexadecimal_radix {x : Char} (hx : among "xX" x = true) (ds : List Char) :
    radix ('0' :: x :: ds) = 16 ∧ numerals ('0' :: x :: ds) = ds := by
  have hradix : radix ('0' :: x :: ds) = 16 := by
    refine if_pos ?_
    simpa [among] using hx
  exact ⟨hradix, by rw [numerals, if_pos hradix]; rfl⟩

/-- Digits without a mark are octal behind a zero. -/
theorem digits_radix {ds : List Char} (hds : ∀ d ∈ ds, isDigit d = true) :
    radix ds = (if ds[0]? = some '0' ∧ 1 < ds.length then 8 else 10) ∧ numerals ds = ds := by
  have hmark : ¬(ds[1]? = some 'x' ∨ ds[1]? = some 'X') := by
    rintro (h | h)
    · exact absurd (hds 'x' (List.mem_of_getElem? h)) (by decide)
    · exact absurd (hds 'X' (List.mem_of_getElem? h)) (by decide)
  have hradix : radix ds = if ds[0]? = some '0' ∧ 1 < ds.length then 8 else 10 := if_neg hmark
  refine ⟨hradix, if_neg ?_⟩
  rw [hradix]
  split <;> decide

theorem isHexDigit_of_mem_numerals {body : List Char}
    (hbody : body ∈ Rule.hexadecimal + someOf isDigit) :
    ∀ c ∈ numerals body, isHexDigit c = true := by
  rcases hbody with hbody | hbody
  · obtain ⟨x, ds, hx, hds, rfl⟩ := Rule.mem_hexadecimal.mp hbody
    rw [(hexadecimal_radix hx ds).2]
    exact (mem_someOf.mp hds).2
  · have hds := (mem_someOf.mp hbody).2
    rw [(digits_radix hds).2]
    intro c hc
    simp [isHexDigit, hds c hc]

/-- The value, if it fits into 64 bits. -/
def fit? (n : Nat) : Option UInt64 :=
  if n < 0x10000000000000000 then some (UInt64.ofNat n) else none

theorem fit?_eq_some_iff {n : Nat} {v : UInt64} : fit? n = some v ↔ n = v.toNat := by
  unfold fit?
  split
  · rename_i hn
    rw [Option.some.injEq, ← UInt64.toNat_inj, UInt64.toNat_ofNat_of_lt' hn]
  · rename_i hn
    have := v.toNat_lt
    simp
    omega

/-- The value of an integer constant is what its digits spell in its base. -/
theorem integerValue?_eq {body : List Char} (hbody : body ∈ Rule.hexadecimal + someOf isDigit) :
    integerValue? body = (ofDigits? (radix body) (numerals body)).bind fit? := by
  rcases hbody with hbody | hbody
  · obtain ⟨x, ds, hx, -, rfl⟩ := Rule.mem_hexadecimal.mp hbody
    obtain ⟨hradix, hnumerals⟩ := hexadecimal_radix hx ds
    rw [hradix, hnumerals]
    obtain rfl | rfl : x = 'x' ∨ x = 'X' := by simpa [among] using hx
    · rfl
    · rfl
  · obtain ⟨hne, hds⟩ := mem_someOf.mp hbody
    obtain ⟨hradix, hnumerals⟩ := digits_radix hds
    rw [hradix, hnumerals]
    unfold integerValue?
    split
    · exact absurd (hds 'x' (by simp)) (by decide)
    · exact absurd (hds 'X' (by simp)) (by decide)
    · simp [ofDigits?_zero_cons]
      rfl
    · rename_i hoctal
      have hdecimal : ¬(body[0]? = some '0' ∧ 1 < body.length) := by
        rintro ⟨hzero, hlength⟩
        obtain ⟨tail, rfl⟩ := List.head?_eq_some_iff.mp (List.head?_eq_getElem?.trans hzero)
        obtain ⟨d, ds, rfl⟩ := List.exists_cons_of_length_pos (Nat.lt_of_succ_lt_succ hlength)
        exact hoctal d ds rfl
      rw [if_neg hdecimal]
      rfl

theorem integerValue?_eq_some_iff {body : List Char}
    (hbody : body ∈ Rule.hexadecimal + someOf isDigit) {v : UInt64} :
    integerValue? body = some v ↔ Spells (radix body) (numerals body) v.toNat := by
  rw [integerValue?_eq hbody, Option.bind_eq_some_iff]
  simp only [fit?_eq_some_iff, exists_eq_right,
    ofDigits?_eq_some_iff (radix_le body) (isHexDigit_of_mem_numerals hbody)]

theorem integerReading_eq_token_iff {text : List Char} {v : UInt64} :
    integerReading text = .token (.int v) ↔ constantValue? text = some v := by
  unfold integerReading
  cases constantValue? text with
  | some n => simp
  | none => simp

theorem integerReading_eq_fault_iff {text : List Char} :
    integerReading text = .fault .invalidInteger ↔ ∀ v, integerReading text ≠ .token (.int v) := by
  rcases integerReading_cases text with ⟨n, h⟩ | h
  · simp [h]
  · simp [h]

/-- An integer constant stands for the number that its digits spell in its base, if that has no more
than 64 bits, and for none otherwise. The suffix does not matter. -/
theorem integerReading_spells {body suffix : List Char}
    (hbody : body ∈ Rule.hexadecimal + someOf isDigit)
    (hsuffix : suffix ∈ optional Rule.integerSuffix) :
    (∀ v : UInt64, integerReading (body ++ suffix) = .token (.int v) ↔
      Spells (radix body) (numerals body) v.toNat) ∧
    (integerReading (body ++ suffix) = .fault .invalidInteger ↔
      ∀ n, Spells (radix body) (numerals body) n → 2 ^ 64 ≤ n) ∧
    integerReading (body ++ suffix) = integerReading body := by
  have hvalue : ∀ v : UInt64, integerReading (body ++ suffix) = .token (.int v) ↔
      Spells (radix body) (numerals body) v.toNat := by
    intro v
    rw [integerReading_eq_token_iff, constantValue?_append hbody hsuffix,
      integerValue?_eq_some_iff hbody]
  refine ⟨hvalue, ?_, ?_⟩
  · rw [integerReading_eq_fault_iff]
    constructor
    · intro hnone n hn
      by_contra hlt
      have htoNat : (UInt64.ofNat n).toNat = n := UInt64.toNat_ofNat_of_lt' (Nat.not_le.mp hlt)
      exact hnone (.ofNat n) ((hvalue _).mpr (htoNat.symm ▸ hn))
    · intro hlarge v hv
      have hle := hlarge _ ((hvalue v).mp hv)
      have hlt := v.toNat_lt
      omega
  · have hplain := constantValue?_append hbody (.inl rfl : [] ∈ optional Rule.integerSuffix)
    rw [List.append_nil] at hplain
    rw [integerReading, integerReading, constantValue?_append hbody hsuffix, hplain]

/-- The largest number of 64 bits, behind zeros and with a suffix that has digits in it. -/
theorem largest_integerReading_spells :
    "0x00fFFFFFFFFFFFFFFF".toList ∈ Rule.hexadecimal + someOf isDigit ∧
    "ui64".toList ∈ optional Rule.integerSuffix ∧
    (∀ v : UInt64, integerReading "0x00fFFFFFFFFFFFFFFFui64".toList = .token (.int v) ↔
      Spells 16 "00fFFFFFFFFFFFFFFF".toList v.toNat) ∧
    (integerReading "0x00fFFFFFFFFFFFFFFFui64".toList = .fault .invalidInteger ↔
      ∀ n, Spells 16 "00fFFFFFFFFFFFFFFF".toList n → 2 ^ 64 ≤ n) ∧
    integerReading "0x00fFFFFFFFFFFFFFFFui64".toList =
      integerReading "0x00fFFFFFFFFFFFFFFF".toList := by
  have hbody : "0x00fFFFFFFFFFFFFFFF".toList ∈ Rule.hexadecimal + someOf isDigit :=
    .inl (Rule.mem_hexadecimal.mpr
      ⟨'x', "00fFFFFFFFFFFFFFFF".toList, rfl,
        mem_someOf.mpr ⟨by decide, List.all_eq_true.mp rfl⟩, rfl⟩)
  have hsuffix : "ui64".toList ∈ optional Rule.integerSuffix :=
    .inr (Rule.mem_integerSuffix.mpr (by decide))
  exact ⟨hbody, hsuffix, integerReading_spells hbody hsuffix⟩

example : integerReading "0x00fFFFFFFFFFFFFFFFui64".toList = .token (.int 0xffffffffffffffff) := by
  decide +kernel

end TinyC
