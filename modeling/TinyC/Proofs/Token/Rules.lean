import TinyC.Proofs.Token.Language
import TinyC.Proofs.Token.RoundTrip

/-!
# Rules of tokens

The texts of tokens, and of what stands between them, given by rules. No text belongs to two rules:
the first character tells signs, words, numbers and blanks apart, and among the numbers it is the
first character behind the leading digits that does.
-/

namespace TinyC

open Computability Lexeme

/-! ## Rules -/

inductive Rule
  | blanks
  | comment
  | word
  | integer
  /-- A float constant with a point. -/
  | pointFloat
  /-- A float constant without one. -/
  | exponentFloat
  /-- The quote that opens a string literal. -/
  | quote
  | operator (p : Punct)

namespace Rule

def long : Language Char := oneOf (among "lL") + exactly "ll" + exactly "LL"

def wide : Language Char := exactly "i64" + exactly "I64"

def integerSuffix : Language Char :=
  oneOf (among "uU") * optional (long + wide) + long * optional (oneOf (among "uU")) + wide

def hexadecimal : Language Char := exactly "0" * oneOf (among "xX") * someOf isHexDigit

def exponent : Language Char :=
  oneOf (among "eE") * optional (oneOf (among "+-")) * someOf isDigit

def floatSuffix : Language Char := oneOf (among "fFlL")

def pointed : Language Char :=
  (oneOf isDigit)∗ * exactly "." * someOf isDigit + someOf isDigit * exactly "."

/-- The texts that belong to a rule. -/
def language : Rule → Language Char
  | .blanks => someOf isGap
  | .comment => exactly "//" * (oneOf (· ≠ '\n'))∗
  | .word => oneOf isWordStart * (oneOf isWordChar)∗
  | .integer => (hexadecimal + someOf isDigit) * optional integerSuffix
  | .pointFloat => pointed * optional exponent * optional floatSuffix
  | .exponentFloat => someOf isDigit * exponent * optional floatSuffix
  | .quote => exactly "\""
  | .operator p => exactly p.text

end Rule

/-! ## First characters -/

/-- What a first character tells about the rule. -/
inductive Kind
  | blank
  | word
  | quote
  | number
  | sign
deriving DecidableEq

def Kind.of (c : Char) : Kind :=
  if isGap c then .blank
  else if isWordStart c then .word
  else if c = '"' then .quote
  else if isDigit c || c = '.' then .number
  else .sign

theorem Kind.of_isGap {c : Char} (h : isGap c = true) : Kind.of c = .blank := by simp [Kind.of, h]

theorem Kind.of_isWordStart {c : Char} (h : isWordStart c = true) : Kind.of c = .word := by
  simp [Kind.of, h, isGap_eq_false h rfl]

theorem Kind.of_isDigit {c : Char} (h : isDigit c = true) : Kind.of c = .number := by
  have hquote : c ≠ '"' := by
    rintro rfl
    cases h
  simp [Kind.of, h, isGap_eq_false h rfl, isWordStart_of_isDigit h, hquote]

namespace Rule

def kind : Rule → Kind
  | .blanks => .blank
  | .word => .word
  | .quote => .quote
  | .integer | .pointFloat | .exponentFloat => .number
  | .comment | .operator _ => .sign

/-! ## Numbers -/

/-- What is behind the leading digits. -/
theorem dropWhile_digits {ds rest : List Char} {c : Char} (hds : ∀ d ∈ ds, isDigit d = true)
    (hc : isDigit c = false) : (ds ++ c :: rest).dropWhile isDigit = c :: rest := by
  rw [List.dropWhile_append_of_pos hds, List.dropWhile_cons_of_neg (by simp [hc])]

theorem mem_integerSuffix {w : List Char} : w ∈ integerSuffix ↔ w ∈ integerSuffixes := by
  unfold integerSuffix long wide
  simp only [oneOf_among_eq_listed, exactly_eq_listed, listed_add, optional_listed, listed_mul]
  have hiff : ∀ words, words ⊆ integerSuffixes ∧ integerSuffixes ⊆ words →
      (w ∈ listed words ↔ w ∈ integerSuffixes) :=
    fun words h => ⟨fun hw => h.1 hw, fun hw => h.2 hw⟩
  exact hiff _ (by decide)

theorem begins_integerSuffix : Begins integerSuffix (among "uUlLiI") := by
  intro c w hw
  have hall : ∀ w ∈ integerSuffixes, w.head?.all (among "uUlLiI") = true := by decide
  exact hall (c :: w) (mem_integerSuffix.mp hw)

theorem mem_hexadecimal {w : List Char} : w ∈ hexadecimal ↔
    ∃ x ds, among "xX" x = true ∧ ds ∈ someOf isHexDigit ∧ w = '0' :: x :: ds := by
  rw [hexadecimal, mul_assoc, Language.mem_mul]
  constructor
  · rintro ⟨_, rfl, b, hb, rfl⟩
    obtain ⟨x, ds, hx, hds, rfl⟩ := mem_oneOf_mul.mp hb
    exact ⟨x, ds, hx, hds, rfl⟩
  · rintro ⟨x, ds, hx, hds, rfl⟩
    exact ⟨"0".toList, rfl, x :: ds, mem_oneOf_mul.mpr ⟨x, ds, hx, hds, rfl⟩, rfl⟩

theorem mem_exponent {w : List Char} : w ∈ exponent ↔
    ∃ x sign ds, among "eE" x = true ∧ sign ∈ optional (oneOf (among "+-")) ∧
      ds ∈ someOf isDigit ∧ w = x :: (sign ++ ds) := by
  rw [exponent, mul_assoc, mem_oneOf_mul]
  constructor
  · rintro ⟨x, b, hx, hb, rfl⟩
    obtain ⟨sign, hsign, ds, hds, rfl⟩ := Language.mem_mul.mp hb
    exact ⟨x, sign, ds, hx, hsign, hds, rfl⟩
  · rintro ⟨x, sign, ds, hx, hsign, hds, rfl⟩
    exact ⟨x, sign ++ ds, hx, Language.append_mem_mul hsign hds, rfl⟩

theorem begins_exponent : Begins exponent (among "eE") := by
  rintro c w h
  obtain ⟨x, sign, ds, hx, -, -, hw⟩ := mem_exponent.mp h
  cases hw
  exact hx

theorem begins_hexadecimal : Begins hexadecimal isDigit := by
  rintro c w h
  obtain ⟨x, ds, -, -, hw⟩ := mem_hexadecimal.mp h
  cases hw
  rfl

/-- Digits on both sides of the point, but not all of them may be left out. -/
theorem mem_pointed {w : List Char} : w ∈ pointed ↔
    ∃ whole fraction, (∀ d ∈ whole, isDigit d = true) ∧ (∀ d ∈ fraction, isDigit d = true) ∧
      ¬(whole = [] ∧ fraction = []) ∧ w = whole ++ '.' :: fraction := by
  constructor
  · rintro (hw | hw)
    · obtain ⟨_, ha, fraction, hfraction, rfl⟩ := Language.mem_mul.mp hw
      obtain ⟨whole, hwhole, _, rfl, rfl⟩ := Language.mem_mul.mp ha
      obtain ⟨hne, hfraction⟩ := mem_someOf.mp hfraction
      exact ⟨whole, fraction, mem_kstar_oneOf.mp hwhole, hfraction, fun h => hne h.2, by simp⟩
    · obtain ⟨whole, hwhole, _, rfl, rfl⟩ := Language.mem_mul.mp hw
      obtain ⟨hne, hwhole⟩ := mem_someOf.mp hwhole
      exact ⟨whole, [], hwhole, by simp, fun h => hne h.1, rfl⟩
  · rintro ⟨whole, fraction, hwhole, hfraction, hne, rfl⟩
    by_cases hfr : fraction = []
    · subst hfr
      have hsome : whole ∈ someOf isDigit := mem_someOf.mpr ⟨fun h => hne ⟨h, rfl⟩, hwhole⟩
      exact .inr (Language.append_mem_mul hsome rfl)
    · have hpoint := Language.append_mem_mul (mem_kstar_oneOf.mpr hwhole)
        (toList_mem_exactly ".")
      have hword := Language.append_mem_mul hpoint (mem_someOf.mpr ⟨hfr, hfraction⟩)
      refine (Language.mem_add _ _ _).mpr (.inl ?_)
      simpa using hword

theorem begins_pointed : Begins pointed fun c => isDigit c || c = '.' := by
  rintro c w h
  obtain ⟨whole, fraction, hwhole, -, -, hw⟩ := mem_pointed.mp h
  cases whole with
  | nil =>
    cases hw
    rfl
  | cons d whole =>
    cases hw
    simp [hwhole]

/-- An integer constant goes on with the letter of a base or of a suffix behind its leading digits,
if it does not end there. -/
theorem behind_integer {w : List Char} (h : w ∈ integer.language) :
    w ∈ someOf isDigit ∨ ∃ c u, w.dropWhile isDigit = c :: u ∧ among "xXuUlLiI" c = true := by
  obtain ⟨body, hbody | hbody, suffix, hsuffix, rfl⟩ := Language.mem_mul.mp h
  · obtain ⟨x, ds, hx, -, rfl⟩ := mem_hexadecimal.mp hbody
    refine .inr ⟨x, ds ++ suffix, ?_, among_imp hx (by decide)⟩
    have hzero : ∀ d ∈ ['0'], isDigit d = true := List.forall_mem_singleton.mpr rfl
    exact dropWhile_digits hzero (eq_false_of_among hx (by decide))
  · rcases hsuffix with rfl | hsuffix
    · rw [List.append_nil]
      exact .inl hbody
    · cases suffix with
      | nil => exact absurd (mem_integerSuffix.mp hsuffix) (by decide)
      | cons c u =>
        have hc := begins_integerSuffix c u hsuffix
        refine .inr ⟨c, u, ?_, among_imp hc (by decide)⟩
        exact dropWhile_digits (mem_someOf.mp hbody).2 (eq_false_of_among hc (by decide))

theorem behind_pointFloat {w : List Char} (h : w ∈ pointFloat.language) :
    ∃ u, w.dropWhile isDigit = '.' :: u := by
  obtain ⟨_, ha, suffix, -, rfl⟩ := Language.mem_mul.mp h
  obtain ⟨_, hbody, exponent, -, rfl⟩ := Language.mem_mul.mp ha
  obtain ⟨whole, fraction, hwhole, -, -, rfl⟩ := mem_pointed.mp hbody
  refine ⟨fraction ++ exponent ++ suffix, ?_⟩
  rw [List.append_assoc, List.append_assoc, List.cons_append, dropWhile_digits hwhole (by decide),
    ← List.append_assoc]

theorem behind_exponentFloat {w : List Char} (h : w ∈ exponentFloat.language) :
    ∃ c u, w.dropWhile isDigit = c :: u ∧ among "eE" c = true := by
  obtain ⟨_, ha, suffix, -, rfl⟩ := Language.mem_mul.mp h
  obtain ⟨whole, hwhole, _, hexponent, rfl⟩ := Language.mem_mul.mp ha
  obtain ⟨x, sign, ds, hx, -, -, rfl⟩ := mem_exponent.mp hexponent
  refine ⟨x, sign ++ ds ++ suffix, ?_, hx⟩
  rw [List.append_assoc, List.cons_append,
    dropWhile_digits (mem_someOf.mp hwhole).2 (eq_false_of_among hx (by decide))]

/-! ## Telling rules apart -/

theorem ne_nil_of_mem {r : Rule} {w : List Char} (h : w ∈ r.language) : w ≠ [] := by
  rintro rfl
  cases r with
  | blanks => exact (mem_someOf.mp h).1 rfl
  | comment =>
    obtain ⟨_, rfl, b, -, hb⟩ := Language.mem_mul.mp h
    cases hb
  | word =>
    obtain ⟨c, w, -, -, hw⟩ := mem_oneOf_mul.mp h
    cases hw
  | integer =>
    rcases behind_integer h with h | ⟨c, u, h, -⟩
    · exact (mem_someOf.mp h).1 rfl
    · cases h
  | pointFloat =>
    obtain ⟨u, h⟩ := behind_pointFloat h
    cases h
  | exponentFloat =>
    obtain ⟨c, u, h, -⟩ := behind_exponentFloat h
    cases h
  | quote => cases h
  | operator p => cases p <;> cases h

/-- The first character tells the kind of a rule. -/
theorem kind_of_mem {r : Rule} {c : Char} {w : List Char} (h : c :: w ∈ r.language) :
    Kind.of c = r.kind := by
  cases r with
  | blanks => exact Kind.of_isGap (Begins.someOf isGap c w h)
  | comment =>
    obtain ⟨_, rfl, b, -, hb⟩ := Language.mem_mul.mp h
    cases hb
    rfl
  | word => exact Kind.of_isWordStart ((Begins.oneOf isWordStart).mul (by simp) c w h)
  | integer =>
    have hne : [] ∉ hexadecimal + someOf isDigit := by
      rw [Language.mem_add]
      simp [mem_hexadecimal]
    exact Kind.of_isDigit ((begins_hexadecimal.add (.someOf isDigit)).mul hne c w h)
  | pointFloat =>
    have hne : [] ∉ pointed := by simp [mem_pointed]
    rw [language, mul_assoc] at h
    rcases Bool.or_eq_true_iff.mp (begins_pointed.mul hne c w h) with hc | hc
    · exact Kind.of_isDigit hc
    · rw [of_decide_eq_true hc]
      rfl
  | exponentFloat =>
    rw [language, mul_assoc] at h
    exact Kind.of_isDigit ((Begins.someOf isDigit).mul (by simp) c w h)
  | quote =>
    cases h
    rfl
  | operator p =>
    cases p <;> cases h <;> rfl

/-- The rule of a text. -/
def ofText? (w : List Char) : Option Rule :=
  match w with
  | [] => none
  | c :: cs =>
    match Kind.of c with
    | .blank => some .blanks
    | .word => some .word
    | .quote => some .quote
    | .number =>
      match (w.dropWhile isDigit).head? with
      | none => some .integer
      | some d =>
        if d = '.' then some .pointFloat
        else if among "eE" d then some .exponentFloat
        else some .integer
    | .sign =>
      match cs with
      | [] => (Punct.ofChar? c).map .operator
      | d :: _ => if c = '/' && d = '/' then some .comment else (Punct.ofPair? c d).map .operator

theorem ofText?_of_mem {r : Rule} {w : List Char} (h : w ∈ r.language) : ofText? w = some r := by
  obtain ⟨c, cs, rfl⟩ := List.exists_cons_of_ne_nil (ne_nil_of_mem h)
  have hkind := kind_of_mem h
  cases r with
  | blanks | word | quote => simp [ofText?, hkind, kind]
  | comment =>
    obtain ⟨_, rfl, b, -, hb⟩ := Language.mem_mul.mp h
    cases hb
    rfl
  | integer =>
    simp only [ofText?, hkind, kind]
    rcases behind_integer h with hdigits | ⟨d, u, hbehind, hd⟩
    · have hnil : (c :: cs).dropWhile isDigit = [] :=
        List.dropWhile_eq_nil_iff.mpr (mem_someOf.mp hdigits).2
      rw [hnil]
      rfl
    · have hpoint : d ≠ '.' := by
        rintro rfl
        cases hd
      simp [hbehind, hpoint, eq_false_of_among (P := among "eE") hd rfl]
  | pointFloat =>
    obtain ⟨u, hbehind⟩ := behind_pointFloat h
    simp [ofText?, hkind, kind, hbehind]
  | exponentFloat =>
    obtain ⟨d, u, hbehind, hd⟩ := behind_exponentFloat h
    have hpoint : d ≠ '.' := by
      rintro rfl
      cases hd
    simp [ofText?, hkind, kind, hbehind, hpoint, hd]
  | operator p => cases p <;> cases h <;> rfl

/-- No text belongs to two rules. -/
theorem eq_of_mem {r r' : Rule} {w : List Char} (h : w ∈ r.language) (h' : w ∈ r'.language) :
    r = r' :=
  Option.some.inj ((ofText?_of_mem h).symm.trans (ofText?_of_mem h'))

/-! ## What rules say -/

/-- The sign at the head of a text, if there is one, and what follows. -/
def splitSign : List Char → List Char × List Char
  | '+' :: tail => (['+'], tail)
  | '-' :: tail => (['-'], tail)
  | tail => ([], tail)

/-- The power of ten that is written behind the letter of an exponent. -/
def powerOf (cs : List Char) : Int :=
  let digits := ofDigits 10 ((splitSign cs).2.takeWhile isDigit)
  if (splitSign cs).1 = ['-'] then -digits else digits

/-- The number that a float constant spells. -/
def floatOf (w : List Char) : Decimal :=
  .ofParts (w.takeWhile isDigit) (((w.dropWhile (· ≠ '.')).drop 1).takeWhile isDigit)
    (powerOf ((w.dropWhile (!among "eE" ·)).drop 1))

/-- What a rule makes of a text. -/
def reading : Rule → List Char → Reading
  | .blanks, _ | .comment, _ => .gap
  | .word, w => .token (.ofWord (String.ofList w))
  | .integer, w =>
    match integerValue? (w.takeWhile (!among "uUlLiI" ·)) with
    | some n => .token (.int n)
    | none => .fault .invalidInteger
  | .pointFloat, w | .exponentFloat, w => .token (.float (floatOf w).toBinary64)
  | .quote, _ => .quote
  | .operator p, _ => .token (.punct p)

end Rule

end TinyC
