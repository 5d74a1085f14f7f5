import TinyC.Proofs.Token.Floats
import TinyC.Proofs.Token.Integers
import TinyC.Proofs.Token.Lookahead

/-!
# Spellings of tokens

The text of a token is made from what was read, not kept from the source. For words, operators and
string literals it is the lexeme again. A constant has many spellings, of which its text is one:
that of an integer in decimal, without a leading zero or a suffix, and that of a float in the fewest
digits that read back. Main statement: the text is the lexeme exactly if the lexeme is that
spelling.
-/

namespace TinyC

open Lexeme

/-! ## Spellings -/

/-- The lexeme spells its token as a message would write it: an integer constant in decimal, without
a leading zero or a suffix, and a float constant that is finite in the fewest digits that read back,
with no characters to spare. -/
def Token.Canonical (lexeme : List Char) : Token → Prop
  | .int _ => (∀ c ∈ lexeme, isDigit c = true) ∧ (lexeme.head? = some '0' → lexeme = ['0'])
  | .float x =>
    x.isInfinite = false ∧ Decimal.Tidy lexeme ∧ (Rule.floatOf lexeme).IsShortest x
  | .str _ | .ident _ | .keyword _ | .punct _ => True

theorem Token.canonical_ofWord (word : String) (lexeme : List Char) :
    (ofWord word).Canonical lexeme := by
  unfold ofWord
  split <;> trivial

section

variable {w : List Char}

/-- Decimal digits without a leading zero stand for the number that they spell. -/
theorem toNat_of_reading {n : UInt64} (hne : w ≠ []) (hdigits : ∀ c ∈ w, isDigit c = true)
    (hzero : w.head? = some '0' → w = ['0'])
    (h : Rule.integer.reading w = .token (.int n)) : n.toNat = ofDigits 10 w := by
  -- No digit is a letter of a suffix, so the whole text is read.
  have htake : w.takeWhile (!among "uUlLiI" ·) = w := by
    rw [List.takeWhile_eq_self_iff]
    intro c hc
    rw [among_eq_false (hdigits c hc) (by decide)]
    rfl
  have hvalue : integerValue? w = some n := by
    simp only [Rule.reading, htake] at h
    cases hvalue : integerValue? w with
    | none =>
      rw [hvalue] at h
      cases h
    | some m =>
      rw [hvalue] at h
      cases h
      rfl
  have hdecimal : ¬(w[0]? = some '0' ∧ 1 < w.length) := by
    rintro ⟨hhead, hlength⟩
    rw [hzero (List.head?_eq_getElem?.trans hhead)] at hlength
    exact Nat.lt_irrefl _ hlength
  obtain ⟨hradix, hnumerals⟩ := digits_radix hdigits
  rw [if_neg hdecimal] at hradix
  rw [integerValue?_eq (.inr (mem_someOf.mpr ⟨hne, hdigits⟩)), hradix, hnumerals,
    Option.bind_eq_some_iff] at hvalue
  obtain ⟨m, hm, hfit⟩ := hvalue
  have hall : w.all (digitValue · < 10) = true := by
    rw [List.all_eq_true]
    exact fun c hc => decide_eq_true (digitValue_lt_of_isDigit (hdigits c hc))
  rw [ofDigits?, if_pos hall, Option.some.injEq] at hm
  rw [hm, fit?_eq_some_iff.mp hfit]

theorem integer_text_iff (hw : w ∈ Rule.integer.language) {n : UInt64}
    (h : Rule.integer.reading w = .token (.int n)) :
    (Token.int n).text.toList = w ↔ (Token.int n).Canonical w := by
  have htext : (Token.int n).text.toList = Nat.toDigits 10 n.toNat := by simp [Token.text]
  rw [htext]
  constructor
  · rintro rfl
    refine ⟨fun c => isDigit_of_mem_toDigits, fun hhead => ?_⟩
    obtain ⟨ds, hds⟩ := List.head?_eq_some_iff.mp hhead
    rw [hds, eq_nil_of_toDigits hds]
  · rintro ⟨hdigits, hzero⟩
    have hne := Rule.ne_nil_of_mem hw
    rw [toNat_of_reading hne hdigits hzero h, toDigits_ofDigits hne hdigits hzero]

/-- A constant that overflows is written as a word, which is no constant. -/
theorem float_text_iff {r : Rule} (hw : w ∈ r.language) (hkind : r.kind = .number) (d : Decimal) :
    (Token.float d.toBinary64).text.toList = w ↔ (Token.float d.toBinary64).Canonical w := by
  rw [Token.text, Token.Canonical]
  cases hinfinite : d.toBinary64.isInfinite with
  | false => rw [d.text_toBinary64_iff hinfinite, eq_self_iff_true, true_and]
  | true =>
    have hne : w ≠ "inf".toList := by
      rintro rfl
      have hword : Kind.of 'i' = r.kind := Rule.kind_of_mem hw
      rw [hkind] at hword
      exact absurd hword (by decide)
    rw [d.text_of_isInfinite hinfinite]
    simpa using hne.symm

/-- What a rule makes of a lexeme has the lexeme for its text exactly if that is the canonical
spelling. -/
theorem Rule.text_iff {r : Rule} (hw : w ∈ r.language) {t : Token} (h : r.reading w = .token t) :
    t.text.toList = w ↔ t.Canonical w := by
  cases r with
  | blanks | comment | quote => cases h
  | word =>
    cases h
    simp [Token.canonical_ofWord]
  | integer =>
    obtain ⟨n, rfl⟩ : ∃ n, t = .int n := by
      simp only [Rule.reading] at h
      split at h
      · cases h
        exact ⟨_, rfl⟩
      · cases h
    exact integer_text_iff hw h
  | pointFloat | exponentFloat =>
    cases h
    exact float_text_iff hw rfl _
  | operator p =>
    cases h
    have htext : w = p.text.toList := hw
    simp [Token.text, Token.Canonical, htext]

end

/-! ## Tokens of a source -/

/-- A lexeme that is a token belongs to a rule, and is what the rule says. -/
theorem Lexeme.exists_rule {c : Char} {cs : List Char} {t : Token}
    (h : (of c cs).reading = .token t) :
    ∃ r : Rule, (of c cs).text ∈ r.language ∧ r.reading (of c cs).text = .token t := by
  have hstalls : ¬Stalls (c :: cs) := not_stalls_of_token fun f hf => by
    rw [h] at hf
    cases hf
  rcases of_obeys hstalls with ⟨r, hobeys⟩ | ⟨-, hlexeme⟩
  · exact ⟨r, hobeys.mem, hobeys.reading ▸ h⟩
  · rw [hlexeme] at h
    cases h

theorem Reading.eq_token {reading : Reading} {t : Token} (h : reading.found? = some (.ok t)) :
    reading = .token t := by
  rcases token_or_fault h with ⟨_, hreading, ⟨⟩⟩ | ⟨_, _, ⟨⟩⟩
  exact hreading

namespace Scanner

/-- Stray characters are faults. -/
theorem found_of_mem_strays {a n : Nat} {text : List Char} {f : Finding} {s : Scanner}
    (h : (f, s) ∈ strays a text n) : f.found = .error .unexpectedCharacter := by
  obtain ⟨i, -, heq⟩ := List.mem_map.mp h
  cases heq
  rfl

/-- The text of a token is the lexeme that it was found in exactly if that is its canonical
spelling. -/
theorem text_iff_of_mem_findings {offset : Nat} {text : List Char} {f : Finding} {s : Scanner}
    (h : (f, s) ∈ findings ⟨.normal, offset, text⟩) {t : Token} (ht : f.found = .ok t) :
    t.text.toList = f.text ↔ t.Canonical f.text := by
  refine normal_induct (P := fun offset text => (f, s) ∈ findings ⟨.normal, offset, text⟩ →
    (t.text.toList = f.text ↔ t.Canonical f.text)) ?_ ?_ ?_ ?_ ?_ offset text h
  · intro offset h
    rw [findings_nil] at h
    cases h
  · intro offset gap rest hgap ih h
    rw [findings_gap hgap] at h
    exact ih h
  · intro offset c cs found hfound ih h
    rw [findings_lexeme hfound] at h
    rcases List.mem_cons.mp h with heq | h
    · cases heq
      cases ht
      obtain ⟨r, hmem, hreading⟩ := Lexeme.exists_rule (Reading.eq_token hfound)
      exact Rule.text_iff hmem hreading
    · exact ih h
  · intro offset text n hfirst ih h
    rw [findings_closed hfirst] at h
    rcases List.mem_append.mp h with h | h
    · rw [found_of_mem_strays h] at ht
      cases ht
    · rcases List.mem_cons.mp h with heq | h
      · cases heq
        cases ht
        simp [Token.text, Token.Canonical]
      · exact ih h
  · intro offset text hnone h
    rw [findings_unclosed hnone] at h
    rcases List.mem_append.mp h with h | h
    · rw [found_of_mem_strays h] at ht
      cases ht
    · cases List.mem_singleton.mp h
      cases ht

end Scanner

end TinyC
