import TinyC.Proofs.Numeral.Digits
import TinyC.Proofs.Numeral.Suffix
import TinyC.Proofs.Token.Steps
import TinyC.Proofs.Token.Words

/-!
# Scanning undoes writing

Tokens that are written one behind the other, with a space between two of them, are found again in
order, each at the place where it was written. That holds of all tokens but float constants, whose
text is a number and not what was read.

The scanner finds a token by the longest lexeme, so what counts is that the text of a token stops
being one as soon as a space follows.
-/

namespace TinyC

open Text

/-! ## Tokens that can be written -/

/-- What stands between the quotes of a string literal: no quote, backslash or line feed, except
that a backslash may take a quote or a backslash with it. -/
inductive LiteralBody : List Char → Prop
  | nil : LiteralBody []
  | char {c : Char} {cs : List Char} : c ∉ ['"', '\\', '\n'] → LiteralBody cs →
    LiteralBody (c :: cs)
  | quote {cs : List Char} : LiteralBody cs → LiteralBody ('\\' :: '"' :: cs)
  | backslash {cs : List Char} : LiteralBody cs → LiteralBody ('\\' :: '\\' :: cs)

/-- The token is what its text stands for. -/
def Token.Writable : Token → Prop
  | .int _ | .keyword _ | .punct _ => True
  | .float _ => False
  | .str text => ∃ body, LiteralBody body ∧ text.toList = '"' :: (body ++ ['"'])
  | .ident name => IsWord name ∧ Keyword.ofWord? name = none

/-- The tokens in one line, with single spaces between them. -/
def Token.line (ts : List Token) : String := " ".intercalate (ts.map Token.text)

/-- The tokens at the places they have in a line that starts at a byte offset. -/
def Token.placed : Nat → List Token → List (Spanned Token)
  | _, [] => []
  | offset, t :: ts =>
    ⟨offset, t, offset + t.text.utf8ByteSize⟩ :: placed (offset + t.text.utf8ByteSize + 1) ts

/-- Nothing follows, or a space. -/
def Separated (rest : List Char) : Prop := rest = [] ∨ ∃ cs, rest = ' ' :: cs

/-- A run of characters ends where the text is separated from what follows. -/
theorem Separated.takeWhile {rest : List Char} (h : Separated rest) {p : Char → Bool}
    (hp : p ' ' = false) : rest.takeWhile p = [] := by
  rcases h with rfl | ⟨cs, rfl⟩
  · rfl
  · simp [hp]

theorem Separated.dropWhile {rest : List Char} (h : Separated rest) {p : Char → Bool}
    (hp : p ' ' = false) : rest.dropWhile p = rest := by
  rcases h with rfl | ⟨cs, rfl⟩
  · rfl
  · simp [hp]

/-! ## Decimal numbers -/

theorem ofDigits?_toDigits (n : Nat) : ofDigits? 10 (Nat.toDigits 10 n) = some n := by
  have hall : (Nat.toDigits 10 n).all (digitValue · < 10) = true := by
    rw [List.all_eq_true]
    intro c hc
    exact decide_eq_true (digitValue_lt_of_isDigit (isDigit_of_mem_toDigits hc))
  rw [ofDigits?, if_pos hall, ofDigits_toDigits]

theorem integerValue?_toDigits (n : UInt64) :
    integerValue? (Nat.toDigits 10 n.toNat) = some n := by
  have hlt : n.toNat < 0x10000000000000000 := n.toNat_lt
  unfold integerValue?
  split
  · rename_i h
    exact absurd (eq_nil_of_toDigits h) (by simp)
  · rename_i h
    exact absurd (eq_nil_of_toDigits h) (by simp)
  · rename_i h
    exact absurd (eq_nil_of_toDigits h) (by simp)
  · rw [ofDigits?_toDigits]
    simp [hlt]

/-! ## One lexeme -/

namespace Lexeme

/-- A character of a class without blanks is none. -/
theorem isGap_eq_false {p : Char → Bool} {c : Char} (hc : p c = true)
    (hp : [' ', '\t', '\r', '\n', '\x0c'].any p = false) : isGap c = false := by
  by_contra hgap
  have hmem : c ∈ [' ', '\t', '\r', '\n', '\x0c'] := by
    simpa [isGap, or_assoc] using eq_true_of_ne_false hgap
  exact List.any_eq_false.mp hp c hmem hc

theorem isWordStart_of_isDigit {c : Char} (h : isDigit c = true) : isWordStart c = false := by
  by_contra hword
  simp only [Bool.not_eq_false, isWordStart, isDigit, Bool.or_eq_true, Bool.and_eq_true,
    decide_eq_true_eq, Char.le_def, UInt32.le_iff_toNat_le] at hword h
  rcases hword with (rfl | hword) | hword
  · exact absurd h (by decide)
  · simp at h hword
    omega
  · simp at h hword
    omega

theorem of_word {c : Char} {cs rest : List Char} (hc : isWordStart c = true)
    (hcs : ∀ d ∈ cs, isWordChar d = true) (hrest : Separated rest) :
    of c (cs ++ rest) = ⟨.token (.ofWord (String.ofList (c :: cs))), c :: cs, rest⟩ := by
  have htake : (cs ++ rest).takeWhile isWordChar = cs := by
    rw [List.takeWhile_append_of_pos hcs, hrest.takeWhile (by decide), List.append_nil]
  have hdrop : (cs ++ rest).dropWhile isWordChar = rest := by
    rw [List.dropWhile_append_of_pos hcs, hrest.dropWhile (by decide)]
  simp [of, isGap_eq_false hc rfl, hc, htake, hdrop]

/-! ### Integer constants -/

theorem exponent?_separated {rest : List Char} (h : Separated rest) : exponent? rest = none := by
  rcases h with rfl | ⟨cs, rfl⟩ <;> rfl

theorem integerSuffix_separated {rest : List Char} (h : Separated rest) :
    integerSuffix rest = [] := by
  rcases h with rfl | ⟨cs, rfl⟩ <;> rfl

/-- Digits alone are no float constant. -/
theorem float?_digits {ds rest : List Char} (hds : ∀ d ∈ ds, isDigit d = true)
    (hrest : Separated rest) : float? (ds ++ rest) = none := by
  have hdrop : (ds ++ rest).dropWhile isDigit = rest := by
    rw [List.dropWhile_append_of_pos hds, hrest.dropWhile (by decide)]
  have hexponent := exponent?_separated hrest
  rcases hrest with rfl | ⟨cs, rfl⟩
  · simp only [float?, hdrop]
    simp [hexponent]
  · simp only [float?, hdrop]
    simp [hexponent]

theorem integerBody_toDigits (n : Nat) {rest : List Char} (hrest : Separated rest) :
    integerBody (Nat.toDigits 10 n ++ rest) = Nat.toDigits 10 n := by
  have htake : (Nat.toDigits 10 n ++ rest).takeWhile isDigit = Nat.toDigits 10 n := by
    rw [List.takeWhile_append_of_pos fun _ => isDigit_of_mem_toDigits,
      hrest.takeWhile (by decide), List.append_nil]
  unfold integerBody
  split
  · rename_i x tail hdigits
    -- A zero in front stands alone, so that a space comes next and not the letter of a base.
    obtain ⟨d, ds, hds⟩ := List.exists_cons_of_ne_nil (Nat.toDigits_ne_nil (n := n) (b := 10))
    rw [hds, List.cons_append] at hdigits
    obtain ⟨rfl, hx⟩ := List.cons.inj hdigits
    rw [eq_nil_of_toDigits hds, List.nil_append] at hx
    obtain rfl : x = ' ' := by
      rcases hrest with rfl | ⟨cs, rfl⟩
      · cases hx
      · exact (List.cons.inj hx).1.symm
    simpa using htake
  · exact htake

theorem integerReading_toDigits (n : UInt64) :
    integerReading (Nat.toDigits 10 n.toNat) = .token (.int n) := by
  have hkept : ∀ c ∈ Nat.toDigits 10 n.toNat, Kept c := fun _ hc =>
    .of_class (isDigit_of_mem_toDigits hc) rfl
  have hdrop := dropSuffix_append hkept List.mem_cons_self
  rw [List.append_nil] at hdrop
  rw [integerReading, constantValue?, hdrop, integerValue?_toDigits]

theorem integer_toDigits (n : UInt64) {rest : List Char} (hrest : Separated rest) :
    integer (Nat.toDigits 10 n.toNat ++ rest) =
      ⟨.token (.int n), Nat.toDigits 10 n.toNat, rest⟩ := by
  simp [integer, integerBody_toDigits _ hrest, integerReading_toDigits,
    integerSuffix_separated hrest]

end Lexeme

/-! ## Writable tokens as lexemes -/

theorem isWord_iff {name : String} : IsWord name ↔
    name.toList.head?.any Lexeme.isWordStart = true ∧
      name.toList.tail.all Lexeme.isWordChar = true := by
  unfold IsWord
  cases name.toList with
  | nil => simp
  | cons c cs => simp

namespace Keyword

theorem isWord_spelling (k : Keyword) : IsWord k.spelling := by
  have hall : ∀ k ∈ all, k.spelling.toList.head?.any Lexeme.isWordStart = true ∧
      k.spelling.toList.tail.all Lexeme.isWordChar = true := by
    decide +kernel
  exact isWord_iff.mpr (hall k (mem_all k))

/-- No two keywords are spelled alike. -/
theorem ofWord?_spelling (k : Keyword) : ofWord? k.spelling = some k := by
  have hall : ∀ k ∈ all, ofWord? k.spelling = some k := by
    decide +kernel
  exact hall k (mem_all k)

end Keyword

/-- The text of a token is read as a lexeme that goes up to the next space. -/
def Token.ReadAlone (t : Token) : Prop :=
  ∃ c cs, t.text.toList = c :: cs ∧ Lexeme.isGap c = false ∧
    ∀ rest, Separated rest → Lexeme.of c (cs ++ rest) = ⟨.token t, c :: cs, rest⟩

theorem IsWord.readAlone {word : String} (h : IsWord word) : (Token.ofWord word).ReadAlone := by
  obtain ⟨c, cs, hword, hc, hcs⟩ := h
  refine ⟨c, cs, by rw [Token.text_ofWord, hword], Lexeme.isGap_eq_false hc rfl, ?_⟩
  intro rest hrest
  rw [Lexeme.of_word hc hcs hrest, ← hword, String.ofList_toList]

theorem Token.readAlone_int (n : UInt64) : (Token.int n).ReadAlone := by
  have htext : (Token.int n).text.toList = Nat.toDigits 10 n.toNat := by
    simp [Token.text]
  obtain ⟨c, cs, hdigits⟩ :=
    List.exists_cons_of_ne_nil (Nat.toDigits_ne_nil (n := n.toNat) (b := 10))
  have hall : ∀ d ∈ c :: cs, isDigit d = true := by
    rw [← hdigits]
    exact fun _ => isDigit_of_mem_toDigits
  have hc := hall c List.mem_cons_self
  have hgap := Lexeme.isGap_eq_false hc rfl
  refine ⟨c, cs, htext.trans hdigits, hgap, ?_⟩
  intro rest hrest
  have hquote : c ≠ '"' := by
    rintro rfl
    exact absurd hc (by decide)
  have hinteger := Lexeme.integer_toDigits n hrest
  have hfloat := Lexeme.float?_digits hall hrest
  rw [hdigits] at hinteger
  simp only [List.cons_append] at hfloat hinteger
  simp [Lexeme.of, hgap, Lexeme.isWordStart_of_isDigit hc, hquote, hfloat, hc, hinteger]

theorem Token.readAlone_punct (p : Punct) : (Token.punct p).ReadAlone := by
  have hcases : ∃ c cs, p.text.toList = c :: cs ∧ Lexeme.isGap c = false ∧
      Lexeme.of c cs = ⟨.token (.punct p), c :: cs, []⟩ ∧
      ∀ tail, Lexeme.of c (cs ++ ' ' :: tail) = ⟨.token (.punct p), c :: cs, ' ' :: tail⟩ := by
    cases p <;> exact ⟨_, _, rfl, rfl, rfl, fun _ => rfl⟩
  obtain ⟨c, cs, htext, hgap, hnil, hspace⟩ := hcases
  refine ⟨c, cs, htext, hgap, ?_⟩
  rintro rest (rfl | ⟨tail, rfl⟩)
  · rw [List.append_nil, hnil]
  · exact hspace tail

/-! ## The scanner -/

namespace Scanner

theorem nextInString_body {start offset : Nat} (text : List Char) {body : List Char}
    (rest : List Char) (h : LiteralBody body) (hoffset : offset = start + byteSize text.reverse) :
    nextInString start text offset (body ++ '"' :: rest) =
      (⟨start, text.reverse ++ (body ++ ['"']),
          .ok (.str (String.ofList (text.reverse ++ (body ++ ['"']))))⟩,
        ⟨.normal, start + byteSize (text.reverse ++ (body ++ ['"'])), rest⟩) := by
  have hquote : '"'.utf8Size = 1 := rfl
  have hbackslash : '\\'.utf8Size = 1 := rfl
  induction h generalizing text offset with
  | nil => simp [nextInString, hoffset, hquote, Nat.add_assoc]
  | @char c cs hc hcs ih =>
    simp only [List.mem_cons, List.not_mem_nil, or_false, not_or] at hc
    rw [List.cons_append, nextInString, ih]
    all_goals simp [hoffset, hc, Nat.add_assoc]
  | quote _ ih =>
    rw [List.cons_append, List.cons_append, nextInString, ih]
    all_goals simp [hoffset, hquote, hbackslash, Nat.add_assoc]
  | backslash _ ih =>
    rw [List.cons_append, List.cons_append, nextInString, ih]
    all_goals simp [hoffset, hbackslash, Nat.add_assoc]

/-- A token that is written in front of a space or the end is found there. -/
def Finds (t : Token) : Prop :=
  (∃ c cs, t.text.toList = c :: cs ∧ Lexeme.isGap c = false) ∧
  ∀ rest, Separated rest → ∀ offset,
    nextNormal offset (t.text.toList ++ rest) =
      (some ⟨offset, t.text.toList, .ok t⟩, ⟨.normal, offset + byteSize t.text.toList, rest⟩)

theorem finds_of_readAlone {t : Token} (h : t.ReadAlone) : Finds t := by
  obtain ⟨c, cs, htext, hgap, hread⟩ := h
  refine ⟨⟨c, cs, htext, hgap⟩, fun rest hrest offset => ?_⟩
  rw [htext, List.cons_append, nextNormal, hread rest hrest]

theorem finds_str {text : String} {body : List Char} (h : LiteralBody body)
    (htext : text.toList = '"' :: (body ++ ['"'])) : Finds (.str text) := by
  refine ⟨⟨'"', _, htext, rfl⟩, fun rest _ offset => ?_⟩
  have hopen : Lexeme.of '"' (body ++ '"' :: rest) = ⟨.quote, ['"'], body ++ '"' :: rest⟩ := rfl
  have hcs : (Token.str text).text.toList ++ rest = '"' :: (body ++ '"' :: rest) := by
    simp [Token.text, htext]
  have hclose := nextInString_body ['"'] rest h
    (rfl : offset + byteSize ['"'] = _)
  rw [hcs, nextNormal, hopen]
  simp only [hclose]
  simp [Token.text, ← htext]

theorem finds_writable {t : Token} (h : t.Writable) : Finds t := by
  cases t with
  | int n => exact finds_of_readAlone (Token.readAlone_int n)
  | float x => exact h.elim
  | str text =>
    obtain ⟨body, hbody, htext⟩ := h
    exact finds_str hbody htext
  | ident name =>
    obtain ⟨hword, hnone⟩ := h
    have hread := hword.readAlone
    rw [Token.ofWord, hnone] at hread
    exact finds_of_readAlone hread
  | keyword k =>
    have hread := k.isWord_spelling.readAlone
    rw [Token.ofWord, k.ofWord?_spelling] at hread
    exact finds_of_readAlone hread
  | punct p => exact finds_of_readAlone (Token.readAlone_punct p)

/-- One space in front of a token is passed over. -/
theorem nextNormal_space {c : Char} (hc : Lexeme.isGap c = false) (offset : Nat)
    (cs : List Char) : nextNormal offset (' ' :: c :: cs) = nextNormal (offset + 1) (c :: cs) := by
  have hspace : Lexeme.of ' ' (c :: cs) = ⟨.gap, [' '], c :: cs⟩ := by
    have hgap : Lexeme.isGap ' ' = true := rfl
    simp [Lexeme.of, hgap, hc]
  rw [nextNormal, hspace]
  rfl

/-- The characters of tokens in one line. -/
def lineChars (ts : List Token) : List Char := [' '].intercalate (ts.map (·.text.toList))

theorem next_lineChars_nil (offset : Nat) :
    (⟨.normal, offset, lineChars []⟩ : Scanner).next = (none, ⟨.finished, offset, []⟩) := by
  simp [next, lineChars, nextNormal]

/-- What stands behind the first token of a line is the line of the others, behind a space. -/
theorem exists_lineChars_cons {t : Token} {ts : List Token} (h : ∀ t ∈ ts, t.Writable) :
    ∃ rest, lineChars (t :: ts) = t.text.toList ++ rest ∧ Separated rest ∧ ∀ offset,
      findings ⟨.normal, offset, rest⟩ = findings ⟨.normal, offset + 1, lineChars ts⟩ := by
  cases ts with
  | nil =>
    refine ⟨[], by simp [lineChars], .inl rfl, fun offset => ?_⟩
    rw [findings_of_next_none (next_lineChars_nil (offset + 1))]
    exact findings_of_next_none (next_lineChars_nil offset)
  | cons u us =>
    refine ⟨' ' :: lineChars (u :: us), ?_, .inr ⟨_, rfl⟩, fun offset => ?_⟩
    · simp [lineChars, List.intercalate_cons_cons]
    · -- The space is a gap of its own, since the next token starts with none.
      obtain ⟨⟨c, cs, hu, hc⟩, -⟩ := finds_writable (h u List.mem_cons_self)
      rw [lineChars, List.map_cons, hu, List.intercalate_cons_cons_left]
      exact findings_congr (nextNormal_space hc offset _)

theorem findings_line {ts : List Token} (h : ∀ t ∈ ts, t.Writable) (offset : Nat)
    (source : List Char) :
    (findings ⟨.normal, offset, lineChars ts⟩).map (fun x => x.1.toItem source) =
      (Token.placed offset ts).map .ok := by
  induction ts generalizing offset with
  | nil =>
    rw [findings_of_next_none (next_lineChars_nil offset)]
    rfl
  | cons t ts ih =>
    obtain ⟨ht, hts⟩ := List.forall_mem_cons.mp h
    obtain ⟨rest, hline, hrest, hbehind⟩ := exists_lineChars_cons (t := t) hts
    obtain ⟨-, hfinds⟩ := finds_writable ht
    have hnext : (⟨.normal, offset, t.text.toList ++ rest⟩ : Scanner).next = _ :=
      hfinds rest hrest offset
    rw [hline, findings_of_next hnext, List.map_cons, hbehind, ih hts, byteSize_toList]
    simp [Token.placed, Finding.toItem, Finding.stop, byteSize_toList]

end Scanner

/-! ## Sources -/

/-- Tokens that are written in one line are found where they were written. -/
theorem tokenize_line {ts : List Token} (h : ∀ t ∈ ts, t.Writable) :
    tokenize (Token.line ts) = (Token.placed 0 ts).map .ok := by
  have hchars : (Token.line ts).toList = Scanner.lineChars ts := by
    simp [Token.line, Scanner.lineChars, String.toList_intercalate, Function.comp_def]
  rw [tokenize, hchars]
  exact Scanner.findings_line h 0 _

/-- Numbers at the ends of their range, words next to keywords, operators that are the start of a
comment or of a longer operator, and a string literal with escapes in the middle. -/
def Token.mixture : List Token :=
  [.int 0, .int 0xffffffffffffffff, .ident "int_", .keyword .int, .str "\"é \\\" // \\\\\"",
    .punct .slash, .punct .slash, .punct .lt, .punct .assign, .punct .andAnd]

theorem mixture_tokenize_line : (∀ t ∈ Token.mixture, t.Writable) ∧
    tokenize (Token.line Token.mixture) = (Token.placed 0 Token.mixture).map .ok := by
  have hbody : LiteralBody ("é \\\" // \\\\".toList) :=
    .char (by decide) (.char (by decide) (.quote (.char (by decide) (.char (by decide)
      (.char (by decide) (.char (by decide) (.backslash .nil)))))))
  have hword : IsWord "int_" ∧ Keyword.ofWord? "int_" = none :=
    ⟨isWord_iff.mpr (by decide +kernel), by decide +kernel⟩
  have hall : ∀ t ∈ Token.mixture, t.Writable := by
    simp only [Token.mixture, List.forall_mem_cons, Token.Writable]
    exact ⟨trivial, trivial, hword, trivial, ⟨_, hbody, rfl⟩, trivial, trivial, trivial, trivial,
      trivial, nofun⟩
  exact ⟨hall, tokenize_line hall⟩

end TinyC
