import TinyC.Proofs.Token.Literals
import TinyC.Proofs.Token.LongestMatch

/-!
# What a lexeme depends on

To find the longest lexeme the scanner looks past its end, but never past a blank. So a lexeme stays
the same if what follows it is changed behind the first blank, or is cut short by one.
-/

namespace TinyC

open Computability Lexeme Text

/-! ## Rules without blanks -/

def noGap (c : Char) : Bool := !isGap c

/-- A class without blanks. -/
theorem noGap_of {p : Char → Bool} (hp : [' ', '\t', '\r', '\n', '\x0c'].any p = false) :
    ∀ c, p c = true → noGap c = true := by
  intro c hc
  simp [noGap, isGap_eq_false hc hp]

namespace Rule

theorem over_integerSuffix : Over integerSuffix noGap := by
  have hlong : Over long noGap :=
    ((Over.oneOf (noGap_of rfl)).add (.exactly rfl)).add (.exactly rfl)
  have hwide : Over wide noGap := Over.add (.exactly rfl) (.exactly rfl)
  have hmark : Over (oneOf (among "uU")) noGap := .oneOf (noGap_of rfl)
  exact ((hmark.mul (hlong.add hwide).optional).add (hlong.mul hmark.optional)).add hwide

theorem over_exponent : Over exponent noGap :=
  ((Over.oneOf (noGap_of rfl)).mul (Over.oneOf (noGap_of rfl)).optional).mul (.someOf (noGap_of rfl))

/-- Only blanks and comments have blanks in them. -/
theorem over_noGap {r : Rule} (hblanks : r ≠ .blanks) (hcomment : r ≠ .comment) :
    Over r.language noGap := by
  have hdigits : Over (someOf isDigit) noGap := .someOf (noGap_of rfl)
  have hsuffix : Over floatSuffix noGap := .oneOf (noGap_of rfl)
  cases r with
  | blanks => exact absurd rfl hblanks
  | comment => exact absurd rfl hcomment
  | word => exact (Over.oneOf (noGap_of rfl)).mul (.kstar_oneOf (noGap_of rfl))
  | integer =>
    have hhexadecimal : Over hexadecimal noGap :=
      ((Over.exactly rfl).mul (.oneOf (noGap_of rfl))).mul (.someOf (noGap_of rfl))
    exact (hhexadecimal.add hdigits).mul over_integerSuffix.optional
  | pointFloat =>
    have hpoint : Over (exactly ".") noGap := .exactly rfl
    have hpointed : Over pointed noGap :=
      (((Over.kstar_oneOf (noGap_of rfl)).mul hpoint).mul hdigits).add (hdigits.mul hpoint)
    exact (hpointed.mul over_exponent.optional).mul hsuffix.optional
  | exponentFloat => exact (hdigits.mul over_exponent).mul hsuffix.optional
  | quote => exact .exactly rfl
  | operator p => cases p <;> exact .exactly rfl

end Rule

/-! ## Texts that agree -/

/-- Up to its first blank, the second text is at the head of the first one. -/
def Agrees (r r' : List Char) : Prop := ∀ v, (∀ c ∈ v, noGap c = true) → v <+: r' → v <+: r

namespace Agrees

variable {r r' : List Char}

theorem append_left (h : Agrees r r') (w : List Char) : Agrees (w ++ r) (w ++ r') := by
  intro v hv hinitial
  rcases List.prefix_or_prefix_of_prefix hinitial (List.prefix_append w r') with hw | ⟨u, rfl⟩
  · exact hw.trans (List.prefix_append w r)
  · rw [List.prefix_append_right_inj] at hinitial ⊢
    exact h u (fun c hc => hv c (List.mem_append_right w hc)) hinitial

/-- Whatever follows behind a line feed does not matter. -/
theorem append_feed (r u : List Char) : Agrees r (r ++ '\n' :: u) := by
  intro v hv hinitial
  rcases List.prefix_or_prefix_of_prefix hinitial (List.prefix_append r _) with hr | ⟨w, rfl⟩
  · exact hr
  · rw [List.prefix_append_right_inj] at hinitial
    cases w with
    | nil => simp
    | cons c w =>
      obtain ⟨rfl, -⟩ := List.cons_prefix_cons.mp hinitial
      exact absurd (hv '\n' (by simp)) (by decide)

/-- Words of rules that begin with no blank and are no comments are common to both texts. -/
theorem initial {c : Char} {cs cs' : List Char} (h : Agrees (c :: cs) (c :: cs'))
    (hc : isGap c = false) (hcomment : ∀ tail, c :: cs ≠ '/' :: '/' :: tail) {r : Rule}
    {v : List Char} (hv : v ∈ r.language) (hinitial : v <+: c :: cs') : v <+: c :: cs := by
  refine h v (Rule.over_noGap ?_ ?_ v hv) hinitial
  · rintro rfl
    obtain ⟨d, v, rfl⟩ := List.exists_cons_of_ne_nil (Rule.ne_nil_of_mem hv)
    obtain ⟨rfl, -⟩ := List.cons_prefix_cons.mp hinitial
    rw [Begins.someOf isGap d v hv] at hc
    cases hc
  · rintro rfl
    obtain ⟨_, rfl, body, -, rfl⟩ := Language.mem_mul.mp hv
    have hslashes : "//".toList <+: c :: cs' := (List.prefix_append _ _).trans hinitial
    obtain ⟨tail, htail⟩ := h _ (List.all_eq_true.mp rfl) hslashes
    exact hcomment tail htail.symm

end Agrees

/-! ## Lexemes -/

namespace Lexeme

/-- A lexeme begins with the first character of the text. -/
theorem exists_text_cons (c : Char) (cs : List Char) :
    ∃ text, (of c cs).text = c :: text ∧ text ++ (of c cs).rest = cs := by
  have hsplit := (of_splits c cs).append
  obtain ⟨d, text, htext⟩ := List.exists_cons_of_ne_nil (of_splits c cs).text_ne
  rw [htext, List.cons_append] at hsplit
  obtain ⟨rfl, hcs⟩ := List.cons.inj hsplit
  exact ⟨text, htext, hcs⟩

/-- A comment is a gap. -/
theorem reading_comment (tail : List Char) : (of '/' ('/' :: tail)).reading = .gap := rfl

theorem reading_of_isGap {c : Char} (hc : isGap c = true) (cs : List Char) :
    (of c cs).reading = .gap := by
  simp [of, hc]

/-- A float constant with a point and an exponent. -/
theorem mem_pointFloat {ds v : List Char} {x : Char} (hds : ds ∈ someOf isDigit)
    (hx : among "eE" x = true) (hv : v ∈ optional (oneOf (among "+-")) * oneOf isDigit) :
    ds ++ '.' :: x :: v ∈ Rule.pointFloat.language := by
  obtain ⟨hne, hdigits⟩ := mem_someOf.mp hds
  obtain ⟨sign, hsign, _, ⟨d, hd, rfl⟩, rfl⟩ := Language.mem_mul.mp hv
  have hpointed : ds ++ ['.'] ∈ Rule.pointed :=
    Rule.mem_pointed.mpr ⟨ds, [], hdigits, by simp, fun h => hne h.1, rfl⟩
  have hexponent : x :: (sign ++ [d]) ∈ optional Rule.exponent :=
    .inr (Rule.mem_exponent.mpr
      ⟨x, sign, [d], hx, hsign, mem_someOf.mpr (by simpa using hd), rfl⟩)
  have hsuffix : [] ∈ optional Rule.floatSuffix := .inl rfl
  have hmem : _ ∈ Rule.pointFloat.language :=
    Language.append_mem_mul (Language.append_mem_mul hpointed hexponent) hsuffix
  simpa using hmem

section

variable {c : Char} {cs text r' : List Char}

/-- An exponent that comes to something is part of the lexeme, so it does not depend on what
follows. -/
theorem not_stalls_of_agrees (htext : (of c cs).text = c :: text)
    (ht : Agrees (c :: cs) (c :: (text ++ r'))) (hs : ¬Stalls (c :: cs)) :
    ¬Stalls (c :: (text ++ r')) := by
  rintro ⟨ds, x, rest, hds, hx, hshape, habsent⟩
  have hplain : ∀ c ∈ ds ++ ['.', x], noGap c = true := by
    intro c hc
    rcases List.mem_append.mp hc with hc | hc
    · exact noGap_of rfl c ((mem_someOf.mp hds).2 c hc)
    · rcases List.mem_cons.mp hc with rfl | hc
      · rfl
      · rw [List.mem_singleton.mp hc]
        exact noGap_of (p := among "eE") rfl x hx
  obtain ⟨rest₀, hrest₀⟩ := ht (ds ++ ['.', x]) hplain ⟨rest, by rw [hshape]; simp⟩
  refine hs ⟨ds, x, rest₀, hds, hx, by rw [← hrest₀]; simp, fun v hv hinitial => ?_⟩
  have hmem := mem_pointFloat hds hx hv
  have hlong : ds ++ '.' :: x :: v <+: c :: cs := by
    obtain ⟨u, rfl⟩ := hinitial
    exact ⟨u, by rw [← hrest₀]; simp⟩
  rcases of_obeys hs with ⟨r, hobeys⟩ | ⟨hnone, -⟩
  · -- The number is at least as long as the exponent asks for.
    have hle := hobeys.longest _ _ hmem hlong
    have hin : ds ++ '.' :: x :: v <+: (of c cs).text :=
      List.prefix_of_prefix_length_le hlong ⟨_, (of_splits c cs).append⟩ hle
    rw [htext] at hin
    have hin' : ds ++ '.' :: x :: v <+: ds ++ '.' :: x :: rest := by
      rw [← hshape]
      exact hin.trans (List.prefix_append (c :: text) r')
    refine habsent v hv ?_
    simpa [List.cons_prefix_cons] using hin'
  · exact hnone _ _ hmem hlong

/-- A lexeme stays the same if what follows agrees up to the first blank. -/
theorem of_agrees (hgap : (of c cs).reading ≠ .gap) (htext : (of c cs).text = c :: text)
    (hr : Agrees (of c cs).rest r') (hs : ¬Stalls (c :: cs)) :
    of c (text ++ r') = ⟨(of c cs).reading, c :: text, r'⟩ := by
  have hsplit := (of_splits c cs).append
  have hsplit' := (of_splits c (text ++ r')).append
  have ht : Agrees (c :: cs) (c :: (text ++ r')) := by
    have happend := hr.append_left (c :: text)
    rwa [← htext, hsplit, htext, List.cons_append] at happend
  have hc : isGap c = false := by
    by_contra hc
    exact hgap (reading_of_isGap (Bool.not_eq_false _ ▸ hc) cs)
  have hcomment : ∀ tail, c :: cs ≠ '/' :: '/' :: tail := by
    intro tail heq
    cases heq
    exact hgap (reading_comment tail)
  have hinitial : ∀ {r : Rule} {v : List Char}, v ∈ r.language → v <+: c :: (text ++ r') →
      v <+: c :: cs := fun hv => ht.initial hc hcomment hv
  rcases of_obeys hs with ⟨r, hobeys⟩ | ⟨hnone, hlexeme⟩
  · have hw : (of c cs).text <+: c :: (text ++ r') := htext ▸ List.prefix_append (c :: text) r'
    rcases of_obeys (not_stalls_of_agrees htext ht hs) with ⟨q, hobeys'⟩ | ⟨hnone, -⟩
    · have hle := hobeys'.longest r _ hobeys.mem hw
      have hge := hobeys.longest q _ hobeys'.mem (hinitial hobeys'.mem ⟨_, hsplit'⟩)
      have hsame : (of c cs).text = (of c (text ++ r')).text := List.IsPrefix.eq_of_length
        (List.prefix_of_prefix_length_le hw ⟨_, hsplit'⟩ hle) (Nat.le_antisymm hle hge)
      have hreading : (of c (text ++ r')).reading = (of c cs).reading := by
        rw [hobeys.reading, hobeys'.reading, ← hsame]
        rw [Rule.eq_of_mem hobeys'.mem (hsame ▸ hobeys.mem)]
      rw [← hsame, htext, List.cons_append, List.cons.injEq, List.append_right_inj] at hsplit'
      calc of c (text ++ r')
          = ⟨(of c (text ++ r')).reading, (of c (text ++ r')).text, (of c (text ++ r')).rest⟩ := rfl
        _ = ⟨(of c cs).reading, c :: text, r'⟩ := by rw [hreading, ← hsame, htext, hsplit'.2]
    · exact absurd hw (hnone r _ hobeys.mem)
  · obtain rfl : text = [] := by
      rw [hlexeme] at htext
      exact (List.cons.inj htext).2.symm
    rcases of_obeys (not_stalls_of_agrees htext ht hs) with ⟨q, hobeys'⟩ | ⟨-, hlexeme'⟩
    · exact absurd (hinitial hobeys'.mem ⟨_, hsplit'⟩) (hnone q _ hobeys'.mem)
    · rw [hlexeme', hlexeme]
      rfl

end

/-! ### Exponents that come to nothing -/

theorem exponent?_of_absent {x : Char} {rest : List Char}
    (h : Absent (optional (oneOf (among "+-")) * oneOf isDigit) rest) :
    exponent? (x :: rest) = none := by
  cases he : exponent? (x :: rest) with
  | none => rfl
  | some e =>
    obtain ⟨hfits, hne⟩ := exponent?_fits he
    obtain ⟨y, sign, ds, -, hsign, hds, htext⟩ :=
      Rule.mem_exponent.mp (hfits.greedy.mem.resolve_left hne)
    obtain ⟨hne, hdigits⟩ := mem_someOf.mp hds
    obtain ⟨d, ds, rfl⟩ := List.exists_cons_of_ne_nil hne
    have hinitial := hfits.greedy.initial
    rw [htext] at hinitial
    obtain ⟨-, t, rfl⟩ := List.cons_prefix_cons.mp hinitial
    refine absurd ⟨ds ++ t, by simp⟩ (h (sign ++ [d]) ?_)
    exact Language.append_mem_mul hsign ⟨d, hdigits d List.mem_cons_self, rfl⟩

theorem of_stalls {c : Char} {cs ds rest : List Char} {x : Char} (hds : ds ∈ someOf isDigit)
    (hx : among "eE" x = true) (h : c :: cs = ds ++ '.' :: x :: rest)
    (habsent : Absent (optional (oneOf (among "+-")) * oneOf isDigit) rest) :
    of c cs = ⟨.fault .invalidInteger, ds ++ ['.'], x :: rest⟩ := by
  obtain ⟨hne, hdigits⟩ := mem_someOf.mp hds
  have hx' : isDigit x = false := eq_false_of_among hx (by decide)
  have htake : (ds ++ '.' :: x :: rest).takeWhile isDigit = ds := by
    rw [List.takeWhile_append_of_pos hdigits]
    simp [isDigit]
  have hdrop : (ds ++ '.' :: x :: rest).dropWhile isDigit = '.' :: x :: rest :=
    Rule.dropWhile_digits hdigits rfl
  have hmark : (x = 'e' || x = 'E') = true := by simpa [among] using hx
  have hfloat : float? (c :: cs) = some ⟨.fault .invalidInteger, ds ++ ['.'], x :: rest⟩ := by
    rw [h]
    simp only [float?, htake, hdrop]
    simp_all [exponent?_of_absent habsent]
  have hc : isDigit c = true := by
    obtain ⟨d, ds, rfl⟩ := List.exists_cons_of_ne_nil hne
    rw [(List.cons.inj h).1]
    exact hdigits d List.mem_cons_self
  have hquote : c ≠ '"' := by
    rintro rfl
    cases hc
  simp [of, isGap_eq_false hc rfl, isWordStart_of_isDigit hc, hquote, hfloat]

theorem not_stalls_of_token {c : Char} {cs : List Char}
    (h : ∀ f, (of c cs).reading ≠ .fault f) : ¬Stalls (c :: cs) := by
  rintro ⟨ds, x, rest, hds, hx, hshape, habsent⟩
  exact h .invalidInteger (by rw [of_stalls hds hx hshape habsent])

/-- A lexeme stays the same if a line feed follows the text. -/
theorem of_append_feed {c : Char} {cs : List Char} (hgap : (of c cs).reading ≠ .gap)
    (u : List Char) : of c (cs ++ '\n' :: u) =
      ⟨(of c cs).reading, (of c cs).text, (of c cs).rest ++ '\n' :: u⟩ := by
  by_cases hs : Stalls (c :: cs)
  · obtain ⟨ds, x, rest, hds, hx, hshape, habsent⟩ := hs
    have hshape' : c :: (cs ++ '\n' :: u) = ds ++ '.' :: x :: (rest ++ '\n' :: u) := by
      rw [← List.cons_append, hshape]
      simp
    have hsign : Over (optional (oneOf (among "+-")) * oneOf isDigit) noGap :=
      (Over.oneOf (noGap_of rfl)).optional.mul (.oneOf (noGap_of rfl))
    have habsent' : Absent (optional (oneOf (among "+-")) * oneOf isDigit) (rest ++ '\n' :: u) :=
      fun v hv hinitial => habsent v hv (Agrees.append_feed rest u v (hsign v hv) hinitial)
    rw [of_stalls hds hx hshape habsent, of_stalls hds hx hshape' habsent']
    rfl
  · obtain ⟨text, htext, hcs⟩ := exists_text_cons c cs
    have hsame := of_agrees hgap htext (Agrees.append_feed _ u) hs
    rw [← List.append_assoc, hcs] at hsame
    rw [hsame, htext]

end Lexeme

/-! ## Gaps -/

/-- What follows a gap matters only to a comment at its end. -/
theorem Gap.congr {rest rest' gap : List Char} (h : Gap rest gap)
    (hrest : (∀ c ∈ rest.head?, c = '\n') → ∀ c ∈ rest'.head?, c = '\n') : Gap rest' gap := by
  induction h with
  | nil => exact .nil
  | blank hc _ ih => exact .blank hc ih
  | @comment body cs hbody hend _ ih =>
    refine .comment hbody ?_ ih
    cases cs with
    | nil => exact hrest hend
    | cons c cs => exact hend

/-! ## Literals -/

section

variable {text text' : List Char} {n i : Nat}

theorem take_congr (h : text'.take (n + 1) = text.take (n + 1)) (hi : i ≤ n + 1) :
    text'.take i = text.take i := by
  rw [← Nat.min_eq_left hi, ← List.take_take, h, List.take_take]

theorem getElem?_congr (h : text'.take (n + 1) = text.take (n + 1)) (hi : i ≤ n) :
    text'[i]? = text[i]? := by
  rw [← List.getElem?_take_of_lt (Nat.lt_succ_of_le hi), h,
    List.getElem?_take_of_lt (Nat.lt_succ_of_le hi)]

theorem closes_congr (h : text'.take (n + 1) = text.take (n + 1)) (hi : i ≤ n) :
    Closes text' i ↔ Closes text i := by
  rw [Closes, Closes, getElem?_congr h hi, take_congr h (by omega)]

theorem stray_congr (h : text'.take (n + 1) = text.take (n + 1)) (hi : i < n) :
    Stray text' i ↔ Stray text i := by
  rw [Stray, Stray, getElem?_congr h hi.le, getElem?_congr h hi, take_congr h (by omega)]

/-- Only the characters up to a quote decide whether it ends the literal. -/
theorem FirstCloses.congr (hfirst : FirstCloses text n)
    (h : text'.take (n + 1) = text.take (n + 1)) : FirstCloses text' n := by
  refine ⟨(closes_congr h (Nat.le_refl n)).mpr hfirst.1, fun i hi hclose => ?_⟩
  exact hfirst.2 i hi ((closes_congr h hi.le).mp hclose)

end

/-! ## What is noted of a scan -/

/-- A finding, and whether the scanner is in a literal behind it. -/
def noted (x : Finding × Scanner) : Finding × Bool := (x.1, x.2.mode.isInString)

namespace Scanner

/-- What is noted of a text that is scanned from outside literals. -/
def notes (offset : Nat) (text : List Char) : List (Finding × Bool) :=
  (findings ⟨.normal, offset, text⟩).map noted

/-- What is noted of a literal that ends with the quote at an index. -/
def closedNotes (a : Nat) (text : List Char) (n : Nat) : List (Finding × Bool) :=
  (strays a text n).map noted ++ [noted (closedAt a text n)]

@[simp] theorem notes_nil (offset : Nat) : notes offset [] = [] := by
  rw [notes, findings_nil, List.map_nil]

theorem notes_gap {gap rest : List Char} (h : Gap rest gap) (offset : Nat) :
    notes offset (gap ++ rest) = notes (offset + byteSize gap) rest := by
  rw [notes, findings_gap h, notes]

theorem notes_lexeme {c : Char} {cs : List Char} {found : Except LexicalFault Token}
    (h : (Lexeme.of c cs).reading.found? = some found) (offset : Nat) :
    notes offset (c :: cs) = (⟨offset, (Lexeme.of c cs).text, found⟩, false) ::
      notes (offset + byteSize (Lexeme.of c cs).text) (Lexeme.of c cs).rest := by
  rw [notes, findings_lexeme h, List.map_cons, notes]
  rfl

section

variable {a n : Nat} {text text' : List Char}

theorem notes_closed (h : FirstCloses text n) :
    notes a ('"' :: text) = closedNotes a text n ++
      notes (a + byteSize ('"' :: text.take (n + 1))) (text.drop (n + 1)) := by
  rw [notes, findings_closed h, List.map_append, List.map_cons, closedNotes, List.append_assoc]
  rfl

theorem notes_unclosed (h : ∀ i, ¬Closes text i) :
    notes a ('"' :: text) = (strays a text text.length).map noted ++ [noted (unclosed a text)] := by
  rw [notes, findings_unclosed h, List.map_append, List.map_singleton]

theorem closedNotes_congr (h : text'.take (n + 1) = text.take (n + 1)) :
    closedNotes a text' n = closedNotes a text n := by
  have hstrays : (List.range n).filter (Stray text' ·) = (List.range n).filter (Stray text ·) := by
    refine List.filter_congr fun i hi => ?_
    rw [decide_eq_decide]
    exact stray_congr h (List.mem_range.mp hi)
  have hclosed : noted (closedAt a text' n) = noted (closedAt a text n) := by
    simp only [noted, closedAt, h]
  rw [closedNotes, closedNotes, strays, strays, hstrays, hclosed, List.map_map, List.map_map]
  refine congrArg (· ++ _) (List.map_congr_left fun i hi => ?_)
  have hi : i < n := List.mem_range.mp (List.mem_filter.mp hi).1
  simp only [Function.comp_apply, noted, strayAt, getElem?_congr h hi.le,
    take_congr h (Nat.le_succ_of_le hi.le)]
  rfl

end

end Scanner

/-- What is noted of a source. -/
def notesOf (source : String) : List (Finding × Bool) := Scanner.notes 0 source.toList

theorem tokenize_eq_map_notesOf (source : String) :
    tokenize source = (notesOf source).map fun y => y.1.toItem source.toList := by
  rw [tokenize_eq_map_scan, notesOf, Scanner.notes, List.map_map]
  rfl

/-- The finding stands in the source. -/
def Finding.In (source : List Char) (f : Finding) : Prop :=
  ∃ before after, source = before ++ (f.text ++ after) ∧ f.start = byteSize before

theorem Finding.in_of_mem {source : String} {y : Finding × Bool} (h : y ∈ notesOf source) :
    y.1.In source.toList := by
  obtain ⟨x, hx, rfl⟩ := List.mem_map.mp h
  obtain ⟨s, -, hwithin, hstep⟩ := exists_step_of_mem_scan hx
  obtain ⟨before, after, hsource, hstart, -⟩ := hstep.quotes hwithin
  exact ⟨before, after, hsource, hstart⟩

end TinyC
