import TinyC.Proofs.Token.Constants

/-!
# The longest match

The scanner takes the longest text at the head of the source that belongs to a rule, and makes of it
what the rule says. If there is none it reports one character. The only exception are digits with a
point behind which an exponent begins and comes to nothing.
-/

namespace TinyC

open Computability Lexeme Text

/-! ## Lexemes -/

/-- Digits with a point, and an exponent that comes to nothing. -/
def Stalls (s : List Char) : Prop :=
  ∃ ds x rest, ds ∈ someOf isDigit ∧ among "eE" x = true ∧ s = ds ++ '.' :: x :: rest ∧
    Absent (optional (oneOf (among "+-")) * oneOf isDigit) rest

namespace Lexeme

/-- The lexeme is the longest text that belongs to a rule, and what the rule says. -/
structure Obeys (lexeme : Lexeme) (s : List Char) (r : Rule) : Prop where
  mem : lexeme.text ∈ r.language
  longest : ∀ (r' : Rule), ∀ v ∈ r'.language, v <+: s → v.length ≤ lexeme.text.length
  reading : lexeme.reading = r.reading lexeme.text

/-- Only rules of one kind match at the head of a text. -/
theorem kind_of_initial {r : Rule} {c : Char} {cs v : List Char} (hv : v ∈ r.language)
    (hinitial : v <+: c :: cs) : r.kind = Kind.of c := by
  obtain ⟨d, v, rfl⟩ := List.exists_cons_of_ne_nil (Rule.ne_nil_of_mem hv)
  obtain ⟨rfl, -⟩ := List.cons_prefix_cons.mp hinitial
  exact (Rule.kind_of_mem hv).symm

theorem obeys_of_kind {lexeme : Lexeme} {c : Char} {cs : List Char} {r : Rule} {P : Char → Bool}
    (hgreedy : Greedy r.language P (c :: cs) lexeme.text)
    (hreading : lexeme.reading = r.reading lexeme.text)
    (hkind : ∀ r' : Rule, r'.kind = Kind.of c → r' = r) : lexeme.Obeys (c :: cs) r where
  mem := hgreedy.mem
  longest := by
    intro r' v hv hinitial
    obtain rfl := hkind r' (kind_of_initial hv hinitial)
    exact hgreedy.longest v hv hinitial
  reading := hreading

/-! ### Numbers -/

section

variable {s v u t : List Char} {c d : Char}

/-- What is behind the leading digits of a number is behind those of the text. -/
theorem dropWhile_of_initial {P : Char → Bool} (hinitial : v <+: s) (hv : v.dropWhile P = c :: u)
    (hs : s.dropWhile P = d :: t) : c = d := by
  obtain ⟨rest, rfl⟩ := hinitial
  rw [List.dropWhile_append, hv] at hs
  exact (List.cons.inj hs).1

/-- Without the letter of a base or of a suffix an integer constant is made of digits. -/
theorem integer_length_le (hv : v ∈ Rule.integer.language) (hinitial : v <+: s)
    (hs : s.dropWhile isDigit = d :: u) (hd : among "xXuUlLiI" d = false) :
    v.length ≤ (s.takeWhile isDigit).length := by
  rcases Rule.behind_integer hv with hdigits | ⟨c, u', hbehind, hc⟩
  · exact (Greedy.kstar_oneOf isDigit s).longest v (mem_kstar_oneOf.mpr (mem_someOf.mp hdigits).2)
      hinitial
  · rw [dropWhile_of_initial hinitial hbehind hs, hd] at hc
    cases hc

theorem pointFloat_absent (hs : (s.dropWhile isDigit).head? ≠ some '.') :
    Absent Rule.pointFloat.language s := by
  rintro v hv ⟨rest, rfl⟩
  obtain ⟨u, hbehind⟩ := Rule.behind_pointFloat hv
  rw [List.dropWhile_append, hbehind] at hs
  exact hs rfl

theorem exponentFloat_absent (hs : exponent? (s.dropWhile isDigit) = none) :
    Absent Rule.exponentFloat.language s := by
  rintro v hv ⟨rest, rfl⟩
  obtain ⟨_, ha, suffix, -, rfl⟩ := Language.mem_mul.mp hv
  obtain ⟨whole, hwhole, exponent, hexponent, rfl⟩ := Language.mem_mul.mp ha
  refine exponent?_absent hs exponent hexponent ⟨suffix ++ rest, ?_⟩
  obtain ⟨x, sign, ds, hx, -, -, rfl⟩ := Rule.mem_exponent.mp hexponent
  simp only [List.append_assoc, List.cons_append]
  exact (Rule.dropWhile_digits (mem_someOf.mp hwhole).2
    (eq_false_of_among hx (by decide))).symm

end

/-- A number, compared with all that could be read in its place. -/
theorem Obeys.of_number {lexeme : Lexeme} {s : List Char} {r : Rule} {P : Char → Bool}
    (hr : r.kind = .number) (hgreedy : Greedy r.language P s lexeme.text)
    (hreading : lexeme.reading = r.reading lexeme.text)
    (hinteger : ∀ v ∈ Rule.integer.language, v <+: s → v.length ≤ lexeme.text.length)
    (hpoint : ∀ v ∈ Rule.pointFloat.language, v <+: s → v.length ≤ lexeme.text.length)
    (hexponent : ∀ v ∈ Rule.exponentFloat.language, v <+: s → v.length ≤ lexeme.text.length) :
    lexeme.Obeys s r where
  mem := hgreedy.mem
  longest := by
    intro r' v hv hinitial
    have hkind : r'.kind = .number := by
      cases s with
      | nil => exact absurd (List.prefix_nil.mp hinitial) (Rule.ne_nil_of_mem hv)
      | cons c cs =>
        rw [kind_of_initial hv hinitial, ← kind_of_initial hgreedy.mem hgreedy.initial, hr]
    cases r' with
    | integer => exact hinteger v hv hinitial
    | pointFloat => exact hpoint v hv hinitial
    | exponentFloat => exact hexponent v hv hinitial
    | blanks | comment | word | quote | operator => cases hkind
  reading := hreading

theorem float_obeys_point {whole cs : List Char} {e : Exponent}
    (hwhole : ∀ d ∈ whole, isDigit d = true) (hne : ¬(whole = [] ∧ cs.takeWhile isDigit = []))
    (he : e.Fits (cs.dropWhile isDigit)) :
    (float whole (cs.takeWhile isDigit) (whole ++ '.' :: cs.takeWhile isDigit) e).Obeys
      (whole ++ '.' :: cs) .pointFloat := by
  have hgreedy := pointFloat_greedy hwhole hne he
  have hbehind : (whole ++ '.' :: cs).dropWhile isDigit = '.' :: cs :=
    Rule.dropWhile_digits hwhole (by decide)
  have htake : (whole ++ '.' :: cs).takeWhile isDigit = whole := by
    rw [List.takeWhile_append_of_pos hwhole]
    simp [isDigit]
  have habsent : Absent Rule.exponentFloat.language (whole ++ '.' :: cs) :=
    exponentFloat_absent (by rw [hbehind]; rfl)
  refine .of_number rfl hgreedy ?_ (fun v hv hinitial => ?_) hgreedy.longest
    fun v hv hinitial => absurd hinitial (habsent v hv)
  · have hvalue := floatOf_point hwhole (isDigit_of_mem_takeWhile cs) he
      (floatSuffix_greedy e.rest).mem
    simp only [Rule.reading, float, hvalue]
  · have hle := integer_length_le hv hinitial hbehind (by decide)
    rw [htake] at hle
    simp only [float, List.length_append]
    omega

theorem float_obeys_exponent {s : List Char} {e : Exponent} (hne : s.takeWhile isDigit ≠ [])
    (he : exponent? (s.dropWhile isDigit) = some e) :
    (float (s.takeWhile isDigit) [] (s.takeWhile isDigit) e).Obeys s .exponentFloat := by
  have hgreedy := exponentFloat_greedy hne he
  obtain ⟨x, cs, hbehind, hx⟩ := mark_of_exponent? he
  have habsent : Absent Rule.pointFloat.language s := by
    refine pointFloat_absent fun hpoint => ?_
    rw [hbehind] at hpoint
    cases hpoint
    cases hx
  refine .of_number rfl hgreedy ?_ (fun v hv hinitial => ?_)
    (fun v hv hinitial => absurd hinitial (habsent v hv)) hgreedy.longest
  · have hvalue := floatOf_exponent (isDigit_of_mem_takeWhile s) (exponent?_fits he).1
      (floatSuffix_greedy e.rest).mem
    simp only [Rule.reading, float, hvalue]
  · have hle := integer_length_le hv hinitial hbehind (eq_false_of_among hx (by decide))
    simp only [float, List.length_append]
    omega

theorem stalls_of_exponent? {whole cs : List Char} (hwhole : ∀ d ∈ whole, isDigit d = true)
    (hne : ¬(whole = [] ∧ cs.takeWhile isDigit = [])) (hfraction : cs.takeWhile isDigit = [])
    (hmark : (cs.dropWhile isDigit).head?.any (among "eE") = true)
    (he : exponent? (cs.dropWhile isDigit) = none) : Stalls (whole ++ '.' :: cs) := by
  have hcs := List.takeWhile_append_dropWhile (p := isDigit) (l := cs)
  rw [hfraction, List.nil_append] at hcs
  rw [hcs] at hmark he
  cases cs with
  | nil => cases hmark
  | cons x rest =>
    refine ⟨whole, x, rest, mem_someOf.mpr ⟨fun h => hne ⟨h, hfraction⟩, hwhole⟩, hmark, rfl, ?_⟩
    exact exponent?_eq_none he hmark

theorem float?_obeys {s : List Char} {lexeme : Lexeme} (h : float? s = some lexeme)
    (hs : ¬Stalls s) : ∃ r, lexeme.Obeys s r := by
  have hsplit := List.takeWhile_append_dropWhile (p := isDigit) (l := s)
  have hwhole := isDigit_of_mem_takeWhile s
  simp only [float?] at h
  split at h
  · rename_i cs hcs
    rw [hcs] at hsplit
    split at h
    · cases h
    · rename_i hne
      have hne : ¬(s.takeWhile isDigit = [] ∧ cs.takeWhile isDigit = []) := by simpa using hne
      have hobeys := fun e => float_obeys_point (e := e) hwhole hne
      rw [hsplit] at hobeys
      split at h
      · rename_i e he
        cases h
        exact ⟨_, hobeys e (exponent?_fits he).1⟩
      · rename_i he
        split at h
        · -- The exponent comes to nothing.
          rename_i hmark
          obtain ⟨hfraction, hmark⟩ := Bool.and_eq_true_iff.mp hmark
          have hempty := of_decide_eq_true hfraction
          refine absurd (hsplit ▸ stalls_of_exponent? hwhole hne hempty ?_ he) hs
          cases hhead : (cs.dropWhile isDigit).head? with
          | none => simp [hhead] at hmark
          | some x => simpa [hhead, among] using hmark
        · cases h
          exact ⟨_, hobeys _ (.none he)⟩
  · split at h
    · cases h
    · obtain ⟨e, he, rfl⟩ := Option.map_eq_some_iff.mp h
      exact ⟨_, float_obeys_exponent ‹_› he⟩

/-- A text that begins with a digit or a point, but with no float constant. -/
theorem float?_eq_none {s : List Char} (h : float? s = none) :
    (∀ cs, s.dropWhile isDigit = '.' :: cs → s.takeWhile isDigit = [] ∧ cs.takeWhile isDigit = []) ∧
      (s.takeWhile isDigit ≠ [] → exponent? (s.dropWhile isDigit) = none) := by
  simp only [float?] at h
  split at h
  · rename_i cs hcs
    split at h
    · rename_i hnil
      rw [hcs]
      refine ⟨fun cs' hcs' => ?_, fun _ => rfl⟩
      cases hcs'
      simpa using hnil
    · split at h
      · cases h
      · split at h
        · cases h
        · cases h
  · rename_i hpoint
    refine ⟨fun cs hcs => absurd hcs (hpoint cs), fun hne => ?_⟩
    rw [if_neg hne] at h
    exact Option.map_eq_none_iff.mp h

theorem integer_obeys {c : Char} {cs : List Char} (hc : isDigit c = true)
    (h : float? (c :: cs) = none) : (integer (c :: cs)).Obeys (c :: cs) .integer := by
  have hgreedy := integer_greedy hc cs
  have hwhole : (c :: cs).takeWhile isDigit ≠ [] := by simp [hc]
  have hpoint : Absent Rule.pointFloat.language (c :: cs) := by
    refine pointFloat_absent fun hhead => ?_
    obtain ⟨tail, htail⟩ := List.head?_eq_some_iff.mp hhead
    exact hwhole ((float?_eq_none h).1 tail htail).1
  have hexponent : Absent Rule.exponentFloat.language (c :: cs) :=
    exponentFloat_absent ((float?_eq_none h).2 hwhole)
  refine .of_number rfl hgreedy ?_ hgreedy.longest
    (fun v hv hinitial => absurd hinitial (hpoint v hv))
    fun v hv hinitial => absurd hinitial (hexponent v hv)
  have hbody := (integerBody_greedy hc cs).mem
  have hsuffix := (integerSuffix_greedy ((c :: cs).drop (integerBody (c :: cs)).length)).mem
  have hsame := constantValue?_append hbody hsuffix
  have htake := takeWhile_integer hbody hsuffix
  cases hvalue : integerValue? (integerBody (c :: cs)) with
  | none => simp only [Rule.reading, integer, integerReading, hsame, htake, hvalue]
  | some n => simp only [Rule.reading, integer, integerReading, hsame, htake, hvalue]

/-! ### Words and signs -/

theorem blanks_obeys {c : Char} (hc : isGap c = true) (cs : List Char) :
    Obeys ⟨.gap, c :: cs.takeWhile isGap, cs.dropWhile isGap⟩ (c :: cs) .blanks := by
  have hgreedy : Greedy (someOf isGap) isGap (c :: cs) ((c :: cs).takeWhile isGap) :=
    .someOf (by simp [hc])
  rw [List.takeWhile_cons_of_pos hc] at hgreedy
  refine obeys_of_kind hgreedy rfl fun r hr => ?_
  rw [Kind.of_isGap hc] at hr
  cases r with
  | blanks => rfl
  | comment | word | integer | pointFloat | exponentFloat | quote | operator => cases hr

theorem word_obeys {c : Char} (hc : isWordStart c = true) (cs : List Char) :
    Obeys ⟨.token (.ofWord (String.ofList (c :: cs.takeWhile isWordChar))),
      c :: cs.takeWhile isWordChar, cs.dropWhile isWordChar⟩ (c :: cs) .word := by
  have hgreedy := (Greedy.oneOf hc cs).mul rfl (Greedy.kstar_oneOf isWordChar cs)
    (R := fun _ => true) (fun _ _ _ => rfl) fun c hc => absurd hc (by simp)
  refine obeys_of_kind hgreedy rfl fun r hr => ?_
  rw [Kind.of_isWordStart hc] at hr
  cases r with
  | word => rfl
  | comment | blanks | integer | pointFloat | exponentFloat | quote | operator => cases hr

theorem quote_obeys (cs : List Char) : Obeys ⟨.quote, ['"'], cs⟩ ('"' :: cs) .quote := by
  have hgreedy : Greedy (exactly "\"") (fun _ => false) ('"' :: cs) ['"'] := .exactly "\"" cs
  refine obeys_of_kind hgreedy rfl fun r hr => ?_
  cases r with
  | quote => rfl
  | comment | blanks | integer | pointFloat | exponentFloat | word | operator => cases hr

end Lexeme

theorem Punct.text_cases (p : Punct) :
    (∃ c, p.text.toList = [c] ∧ ofChar? c = some p) ∨
      ∃ c d, p.text.toList = [c, d] ∧ ofPair? c d = some p := by
  cases p with
  | andAnd | orOr | le | ge | eqEq | ne => exact .inr ⟨_, _, rfl, rfl⟩
  | star | plus | minus | percent | slash | amp | bang | tilde | pipe | caret | assign | comma
  | lparen | rparen | lbrace | rbrace | semicolon | lt | gt => exact .inl ⟨_, rfl, rfl⟩

namespace Lexeme

/-- No text at the head belongs to a rule, and the first character is reported. -/
def Unmatched (lexeme : Lexeme) (c : Char) (cs : List Char) : Prop :=
  (∀ r : Rule, Absent r.language (c :: cs)) ∧ lexeme = ⟨.fault .unexpectedCharacter, [c], cs⟩

theorem single_obeys {c : Char} {cs : List Char} (hc : Kind.of c = .sign)
    (hcomment : Absent Rule.comment.language (c :: cs))
    (hpair : ∀ d tail, cs = d :: tail → Punct.ofPair? c d = none) :
    (∃ r, (single c cs).Obeys (c :: cs) r) ∨ (single c cs).Unmatched c cs := by
  -- What is left are operators of one character.
  have hall : ∀ (r : Rule), ∀ v ∈ r.language, v <+: c :: cs →
      ∃ p, Punct.ofChar? c = some p ∧ v = [c] := by
    intro r v hv hinitial
    have hkind := (kind_of_initial hv hinitial).trans hc
    cases r with
    | comment => exact absurd hinitial (hcomment v hv)
    | operator p =>
      obtain rfl := mem_exactly.mp hv
      rcases p.text_cases with ⟨d, htext, hp⟩ | ⟨d, e, htext, hp⟩
      · rw [htext] at hinitial ⊢
        obtain ⟨rfl, -⟩ := List.cons_prefix_cons.mp hinitial
        exact ⟨p, hp, rfl⟩
      · rw [htext] at hinitial
        obtain ⟨rfl, t, rfl⟩ := List.cons_prefix_cons.mp hinitial
        rw [hpair e t rfl] at hp
        cases hp
    | blanks | integer | pointFloat | exponentFloat | quote | word => cases hkind
  unfold single
  cases hp : Punct.ofChar? c with
  | none =>
    refine .inr ⟨fun r v hv hinitial => ?_, rfl⟩
    obtain ⟨p, hp', -⟩ := hall r v hv hinitial
    cases hp.symm.trans hp'
  | some p =>
    refine .inl ⟨.operator p, (Punct.text_of_ofChar? hp).symm, fun r v hv hinitial => ?_, rfl⟩
    obtain ⟨-, -, rfl⟩ := hall r v hv hinitial
    exact Nat.le_refl _

theorem comment_obeys (cs : List Char) :
    Obeys ⟨.gap, '/' :: '/' :: cs.takeWhile (· ≠ '\n'), cs.dropWhile (· ≠ '\n')⟩ ('/' :: '/' :: cs)
      .comment := by
  have hslashes : Greedy (exactly "//") (fun _ => false) ('/' :: '/' :: cs) ['/', '/'] :=
    .exactly "//" cs
  have hgreedy := hslashes.mul rfl (Greedy.kstar_oneOf (· ≠ '\n') cs) (R := fun _ => true)
    (fun _ _ _ => rfl) fun c hc => absurd hc (by simp)
  refine ⟨hgreedy.mem, fun r v hv hinitial => ?_, rfl⟩
  have hkind := kind_of_initial hv hinitial
  cases r with
  | comment => exact hgreedy.longest v hv hinitial
  | operator p =>
    obtain rfl := mem_exactly.mp hv
    rcases p.text_cases with ⟨d, htext, -⟩ | ⟨d, e, htext, -⟩
    · simp [htext]
    · simp [htext]
  | blanks | integer | pointFloat | exponentFloat | quote | word => cases hkind

theorem comment_absent {c : Char} {cs : List Char} (h : ∀ tail, c = '/' → cs ≠ '/' :: tail) :
    Absent Rule.comment.language (c :: cs) := by
  rintro v hv ⟨t, ht⟩
  obtain ⟨_, rfl, body, -, rfl⟩ := Language.mem_mul.mp hv
  obtain ⟨hc, hcs⟩ := List.cons.inj ht
  exact h (body ++ t) hc.symm hcs.symm

theorem operator_obeys {c : Char} (hc : Kind.of c = .sign) (cs : List Char) :
    (∃ r, (operator c cs).Obeys (c :: cs) r) ∨ (operator c cs).Unmatched c cs := by
  unfold operator
  split
  · exact single_obeys hc (comment_absent (by simp)) (by simp)
  · rename_i d tail
    split
    · rename_i hslashes
      obtain ⟨rfl, rfl⟩ : c = '/' ∧ d = '/' := by simpa using hslashes
      exact .inl ⟨.comment, comment_obeys tail⟩
    · rename_i hslashes
      have habsent : Absent Rule.comment.language (c :: d :: tail) := by
        refine comment_absent fun tail' hc hcs => hslashes ?_
        simp [hc, (List.cons.inj hcs).1]
      split
      · rename_i p hp
        refine .inl ⟨.operator p, (Punct.text_of_ofPair? hp).symm, fun r v hv hinitial => ?_, rfl⟩
        have hkind := (kind_of_initial hv hinitial).trans hc
        cases r with
        | comment => exact absurd hinitial (habsent v hv)
        | operator q =>
          obtain rfl := mem_exactly.mp hv
          rcases q.text_cases with ⟨d, htext, -⟩ | ⟨d, e, htext, -⟩
          · simp [htext]
          · simp [htext]
        | blanks | integer | pointFloat | exponentFloat | quote | word => cases hkind
      · rename_i hp
        refine single_obeys hc habsent fun e tail' htail => ?_
        cases htail
        exact hp

/-- A point alone begins nothing. -/
theorem point_unmatched {cs : List Char} (h : float? ('.' :: cs) = none) :
    (operator '.' cs).Unmatched '.' cs := by
  have hbehind : ('.' :: cs).dropWhile isDigit = '.' :: cs := rfl
  obtain ⟨-, hfraction⟩ := (float?_eq_none h).1 cs hbehind
  have hexponent : Absent Rule.exponentFloat.language ('.' :: cs) := exponentFloat_absent rfl
  refine ⟨fun r v hv hinitial => ?_, ?_⟩
  · have hkind := kind_of_initial hv hinitial
    cases r with
    | integer =>
      have hle := integer_length_le hv hinitial hbehind (by decide)
      exact Rule.ne_nil_of_mem hv (List.eq_nil_of_length_eq_zero (Nat.le_zero.mp hle))
    | exponentFloat => exact hexponent v hv hinitial
    | pointFloat =>
      obtain ⟨_, ha, suffix, -, rfl⟩ := Language.mem_mul.mp hv
      obtain ⟨_, hbody, exponent, -, rfl⟩ := Language.mem_mul.mp ha
      obtain ⟨whole, fraction, hwhole, hdigits, hne, rfl⟩ := Rule.mem_pointed.mp hbody
      obtain ⟨t, ht⟩ := hinitial
      cases whole with
      | nil =>
        have hcs : cs = fraction ++ (exponent ++ (suffix ++ t)) := by
          simpa using (List.cons.inj ht).2.symm
        rw [hcs, List.takeWhile_append_of_pos hdigits] at hfraction
        exact hne ⟨rfl, (List.append_eq_nil_iff.mp hfraction).1⟩
      | cons d whole =>
        obtain ⟨rfl, -⟩ := List.cons.inj ht
        exact absurd (hwhole '.' List.mem_cons_self) (by decide)
    | blanks | comment | quote | word | operator => cases hkind
  · cases cs with
    | nil => rfl
    | cons d cs => rfl

theorem of_obeys {c : Char} {cs : List Char} (hs : ¬Stalls (c :: cs)) :
    (∃ r, (of c cs).Obeys (c :: cs) r) ∨ (of c cs).Unmatched c cs := by
  unfold of
  split
  · rename_i hgap
    exact .inl ⟨_, blanks_obeys hgap cs⟩
  · rename_i hgap
    split
    · rename_i hword
      exact .inl ⟨_, word_obeys hword cs⟩
    · rename_i hword
      split
      · rename_i hquote
        subst hquote
        exact .inl ⟨_, quote_obeys cs⟩
      · rename_i hquote
        split
        · exact .inl (float?_obeys ‹_› hs)
        · rename_i hfloat
          split
          · rename_i hdigit
            exact .inl ⟨_, integer_obeys hdigit hfloat⟩
          · rename_i hdigit
            by_cases hpoint : c = '.'
            · subst hpoint
              exact .inr (point_unmatched hfloat)
            · exact operator_obeys (by simp [Kind.of, *]) cs

end Lexeme

/-! ## Scanning -/

/-- What the scanner does with a text and its reading. -/
def Reading.proceed (offset : Nat) (text rest : List Char) : Reading → Option Finding × Scanner
  | .gap => Scanner.next ⟨.normal, offset + byteSize text, rest⟩
  | .quote => Scanner.next ⟨.inString offset text.reverse, offset + byteSize text, rest⟩
  | .token t => (some ⟨offset, text, .ok t⟩, ⟨.normal, offset + byteSize text, rest⟩)
  | .fault f => (some ⟨offset, text, .error f⟩, ⟨.normal, offset + byteSize text, rest⟩)

theorem Scanner.next_normal (offset : Nat) (c : Char) (cs : List Char) :
    next ⟨.normal, offset, c :: cs⟩ =
      (Lexeme.of c cs).reading.proceed offset (Lexeme.of c cs).text (Lexeme.of c cs).rest := by
  rw [next, nextNormal]
  cases h : (Lexeme.of c cs).reading with
  | gap => rfl
  | quote =>
    have htext := (Lexeme.of_faithful c cs).quote h
    obtain ⟨rfl, -⟩ : '"' = c ∧ (Lexeme.of c cs).rest = cs := by
      simpa [htext] using (Lexeme.of_splits c cs).append
    rw [htext]
    rfl
  | token t => rfl
  | fault f => rfl

/-- The longest text at the head of another one that belongs to a rule. -/
structure LongestMatch (s w : List Char) : Prop where
  ne_nil : w ≠ []
  initial : w <+: s
  matched : ∃ r : Rule, w ∈ r.language
  longest : ∀ v, v <+: s → (∃ r : Rule, v ∈ r.language) → v.length ≤ w.length

/-- A scan takes the longest text that belongs to a rule, only one rule comes into question, and
what is made of the text is what the rule says. If no text belongs to a rule, the scan reports the
first character. -/
theorem Scanner.next_longestMatch {s : List Char} (hs : ¬Stalls s) (offset : Nat) :
    ((∃ v, v ≠ [] ∧ v <+: s ∧ ∃ r : Rule, v ∈ r.language) →
      ∃ w rest r, s = w ++ rest ∧ LongestMatch s w ∧ (∀ r' : Rule, w ∈ r'.language ↔ r' = r) ∧
        next ⟨.normal, offset, s⟩ = (r.reading w).proceed offset w rest) ∧
    ((∀ v, v ≠ [] → v <+: s → ∀ r : Rule, v ∉ r.language) → ∀ c cs, s = c :: cs →
      next ⟨.normal, offset, s⟩ =
        (some ⟨offset, [c], .error .unexpectedCharacter⟩,
          ⟨.normal, offset + c.utf8Size, cs⟩)) := by
  cases s with
  | nil =>
    refine ⟨?_, fun _ c cs hcs => by cases hcs⟩
    rintro ⟨v, hne, hinitial, -⟩
    exact absurd (List.prefix_nil.mp hinitial) hne
  | cons c cs =>
    rw [next_normal]
    have hsplits := Lexeme.of_splits c cs
    rcases Lexeme.of_obeys hs with ⟨r, hobeys⟩ | ⟨habsent, hlexeme⟩
    · refine ⟨fun _ => ⟨_, _, r, hsplits.append.symm, ?_, fun r' => ⟨fun hr' => ?_, ?_⟩, ?_⟩,
        fun hnone => ?_⟩
      · refine ⟨hsplits.text_ne, ⟨_, hsplits.append⟩, ⟨r, hobeys.mem⟩, ?_⟩
        rintro v hv ⟨r', hr'⟩
        exact hobeys.longest r' v hr' hv
      · exact Rule.eq_of_mem hr' hobeys.mem
      · rintro rfl
        exact hobeys.mem
      · rw [hobeys.reading]
      · exact absurd hobeys.mem (hnone _ hsplits.text_ne ⟨_, hsplits.append⟩ r)
    · refine ⟨?_, fun _ d ds hds => ?_⟩
      · rintro ⟨v, -, hinitial, r, hr⟩
        exact absurd hinitial (habsent r v hr)
      · cases hds
        rw [hlexeme]
        simp [Reading.proceed]

/-- Digits on both sides of a point, and what could be an exponent but is none. -/
theorem Scanner.next_longestMatch_fraction : ¬Stalls "1.5e+".toList ∧
    ∃ w rest r, "1.5e+".toList = w ++ rest ∧ LongestMatch "1.5e+".toList w ∧
      (∀ r' : Rule, w ∈ r'.language ↔ r' = r) ∧
      next ⟨.normal, 0, "1.5e+".toList⟩ = (r.reading w).proceed 0 w rest := by
  have hs : ¬Stalls "1.5e+".toList := by
    rintro ⟨ds, x, rest, hds, hx, hs, -⟩
    have hbehind : (ds ++ '.' :: x :: rest).dropWhile isDigit = '.' :: x :: rest :=
      Rule.dropWhile_digits (mem_someOf.mp hds).2 rfl
    rw [← hs] at hbehind
    cases hbehind
    cases hx
  have hdigit : ['1'] ∈ Rule.integer.language := (Lexeme.integer_greedy (c := '1') rfl []).mem
  exact ⟨hs, (next_longestMatch hs 0).1 ⟨['1'], by decide, ⟨".5e+".toList, rfl⟩, .integer, hdigit⟩⟩

end TinyC
