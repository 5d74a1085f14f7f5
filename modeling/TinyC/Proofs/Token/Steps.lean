import Mathlib
import TinyC.Token.Scanner

/-!
# Steps of the scanner

What one call of `Scanner.next` can do, said once: it passes over a gap and then takes a lexeme, or
goes on in a string literal up to its end, to a character that must not stand there, or to the end
of the source. Whatever holds of a whole scan follows from that.
-/

namespace TinyC

open Text

theorem Text.byteSize_pos {cs : List Char} (h : cs ≠ []) : 0 < byteSize cs := by
  cases cs with
  | nil => exact absurd rfl h
  | cons c cs => exact Nat.lt_of_lt_of_le c.utf8Size_pos (Nat.le_add_right _ _)

theorem Text.byteSize_toList (source : String) : byteSize source.toList = source.utf8ByteSize := by
  rw [← String.ofList_toList (s := source)]
  generalize source.toList = cs
  induction cs with
  | nil => rfl
  | cons c cs ih => simpa using ih

/-! ## Gaps -/

/-- The text is made of blanks and comments only, where `rest` is what stands behind it. A comment
goes on up to the end of its line. -/
inductive Gap (rest : List Char) : List Char → Prop
  | nil : Gap rest []
  | blank {c : Char} {cs : List Char} : c ∈ [' ', '\t', '\r', '\n', '\x0c'] → Gap rest cs →
    Gap rest (c :: cs)
  | comment {body cs : List Char} : '\n' ∉ body → (∀ c ∈ (cs ++ rest).head?, c = '\n') →
    Gap rest cs → Gap rest ('/' :: '/' :: (body ++ cs))

namespace Gap

theorem append {gap gap' rest : List Char} (h : Gap (gap' ++ rest) gap) (h' : Gap rest gap') :
    Gap rest (gap ++ gap') := by
  induction h with
  | nil => exact h'
  | blank hc _ ih => exact .blank hc ih
  | @comment body cs hbody hend _ ih =>
    rw [List.cons_append, List.cons_append, List.append_assoc]
    exact .comment hbody (by rwa [List.append_assoc]) ih

theorem of_blanks {rest cs : List Char} (h : ∀ c ∈ cs, Lexeme.isGap c = true) : Gap rest cs := by
  induction cs with
  | nil => exact .nil
  | cons c cs ih =>
    have hc : c ∈ [' ', '\t', '\r', '\n', '\x0c'] := by
      simpa [Lexeme.isGap, or_assoc] using h c List.mem_cons_self
    exact .blank hc (ih fun d hd => h d (List.mem_cons_of_mem _ hd))

end Gap

/-! ## Lexemes -/

namespace Lexeme

/-- The text of a lexeme is what its reading says. -/
structure Faithful (lexeme : Lexeme) : Prop where
  gap : lexeme.reading = .gap → Gap lexeme.rest lexeme.text
  quote : lexeme.reading = .quote → lexeme.text = ['"']
  unexpected : lexeme.reading = .fault .unexpectedCharacter → ∃ c, lexeme.text = [c]
  /-- Only the end of the source leaves a string literal without its end. -/
  terminated : lexeme.reading ≠ .fault .unterminatedString

theorem Faithful.of_gap {lexeme : Lexeme} (h : lexeme.reading = .gap)
    (hgap : Gap lexeme.rest lexeme.text) : lexeme.Faithful := by
  constructor <;> simp [h, hgap]

theorem Faithful.of_token {lexeme : Lexeme} {t : Token} (h : lexeme.reading = .token t) :
    lexeme.Faithful := by
  constructor <;> simp [h]

theorem Faithful.of_invalidInteger {lexeme : Lexeme}
    (h : lexeme.reading = .fault .invalidInteger) : lexeme.Faithful := by
  constructor <;> simp [h]

theorem float?_faithful {cs : List Char} {lexeme : Lexeme} (h : float? cs = some lexeme) :
    lexeme.Faithful := by
  simp only [float?] at h
  split at h
  · split at h
    · cases h
    · split at h
      · cases h
        exact .of_token rfl
      · split at h
        · cases h
          exact .of_invalidInteger rfl
        · cases h
          exact .of_token rfl
  · split at h
    · cases h
    · obtain ⟨e, -, rfl⟩ := Option.map_eq_some_iff.mp h
      exact .of_token rfl

theorem integer_faithful (cs : List Char) : (integer cs).Faithful := by
  rcases integerReading_cases (integer cs).text with ⟨n, h⟩ | h
  · exact .of_token h
  · exact .of_invalidInteger h

theorem single_faithful (c : Char) (cs : List Char) : (single c cs).Faithful := by
  unfold single
  split
  · exact .of_token rfl
  · constructor <;> simp

theorem operator_faithful (c : Char) (cs : List Char) : (operator c cs).Faithful := by
  unfold operator
  split
  · exact single_faithful c []
  · rename_i d tail
    split
    · rename_i hslash
      obtain ⟨hc, hd⟩ : c = '/' ∧ d = '/' := by simpa using hslash
      subst hc hd
      refine .of_gap rfl ?_
      have hbody : '\n' ∉ tail.takeWhile (· ≠ '\n') := by
        intro hmem
        simpa using List.mem_takeWhile_imp hmem
      have hend : ∀ c ∈ ([] ++ tail.dropWhile (· ≠ '\n')).head?, c = '\n' := by
        intro c hc
        have hnot := List.head?_dropWhile_not (· ≠ '\n') tail
        rw [List.nil_append, Option.mem_def] at hc
        rw [hc] at hnot
        simpa using hnot
      simpa using Gap.comment hbody hend .nil
    · split
      · exact .of_token rfl
      · exact single_faithful c _

theorem of_faithful (c : Char) (cs : List Char) : (of c cs).Faithful := by
  unfold of
  split
  · rename_i hc
    refine .of_gap rfl (.of_blanks fun d hd => ?_)
    rcases List.mem_cons.mp hd with rfl | hd
    · exact hc
    · exact List.mem_takeWhile_imp hd
  · split
    · exact .of_token rfl
    · split
      · rename_i hc
        constructor <;> simp [hc]
      · split
        · exact float?_faithful ‹_›
        · split
          · exact integer_faithful _
          · exact operator_faithful c cs

end Lexeme

/-! ## Steps -/

namespace Scanner

/-- What is found next in a string literal that opens at `start`, when `opened` has been read of it
and `ahead` is still to be read. -/
inductive StepInString (start : Nat) (opened ahead : List Char) : Finding → Scanner → Prop
  | close (body rest : List Char) : ahead = body ++ '"' :: rest →
    StepInString start opened ahead
      ⟨start, opened ++ (body ++ ['"']), .ok (.str (String.ofList (opened ++ (body ++ ['"']))))⟩
      ⟨.normal, start + byteSize (opened ++ (body ++ ['"'])), rest⟩
  | fault (body rest : List Char) (c : Char) : ahead = body ++ c :: rest →
    StepInString start opened ahead
      ⟨start + byteSize (opened ++ body), [c], .error .unexpectedCharacter⟩
      ⟨.inString start (opened ++ (body ++ [c])).reverse,
        start + byteSize (opened ++ (body ++ [c])), rest⟩
  | unterminated : StepInString start opened ahead
      ⟨start, opened ++ ahead, .error .unterminatedString⟩
      ⟨.finished, start + byteSize (opened ++ ahead), []⟩

/-- Characters that are read without a finding count as read. -/
theorem StepInString.shift {start : Nat} {opened passed ahead : List Char} {f : Finding}
    {s : Scanner} (h : StepInString start (opened ++ passed) ahead f s) :
    StepInString start opened (passed ++ ahead) f s := by
  cases h with
  | close body rest h =>
    simpa using StepInString.close (passed ++ body) rest (by simp [h])
  | fault body rest c h =>
    simpa using StepInString.fault (passed ++ body) rest c (by simp [h])
  | unterminated =>
    have hend : StepInString start opened (passed ++ ahead) _ _ := .unterminated
    simpa using hend

theorem nextInString_step {start : Nat} {text : List Char} {offset : Nat} (cs : List Char)
    (h : offset = start + byteSize text.reverse) :
    StepInString start text.reverse cs (nextInString start text offset cs).1
      (nextInString start text offset cs).2 := by
  have hquote : '"'.utf8Size = 1 := rfl
  have hbackslash : '\\'.utf8Size = 1 := rfl
  fun_induction nextInString start text offset cs with
  | case1 text offset =>
    subst h
    have hend : StepInString start text.reverse [] _ _ := .unterminated
    simpa using hend
  | case2 text offset rest whole =>
    subst h
    have hclose : StepInString start text.reverse ('"' :: rest) _ _ := .close [] rest rfl
    simpa [whole, hquote, Nat.add_assoc] using hclose
  | case3 text offset rest ih =>
    have hstep := ih (by simp [h, hquote, hbackslash, Nat.add_assoc])
    rw [List.reverse_cons, List.reverse_cons, List.append_assoc] at hstep
    exact hstep.shift
  | case4 text offset rest ih =>
    have hstep := ih (by simp [h, hbackslash, Nat.add_assoc])
    rw [List.reverse_cons, List.reverse_cons, List.append_assoc] at hstep
    exact hstep.shift
  | case5 text offset c rest =>
    subst h
    have hfault : StepInString start text.reverse (c :: rest) _ _ := .fault [] rest c rfl
    simpa [Nat.add_assoc] using hfault
  | case6 text offset c rest _ _ _ _ ih =>
    have hstep := ih (by simp [h, Nat.add_assoc])
    rw [List.reverse_cons] at hstep
    exact hstep.shift

/-- What one call of `next` finds, and the scanner behind it. -/
inductive Step : Scanner → Finding → Scanner → Prop
  | lexeme {offset : Nat} {gap text rest : List Char} {found : Except LexicalFault Token} :
    Gap (text ++ rest) gap → text ≠ [] → found ≠ .error .unterminatedString →
    (found = .error .unexpectedCharacter → ∃ c, text = [c]) →
    Step ⟨.normal, offset, gap ++ (text ++ rest)⟩ ⟨offset + byteSize gap, text, found⟩
      ⟨.normal, offset + byteSize gap + byteSize text, rest⟩
  | opening {offset : Nat} {gap rest : List Char} {f : Finding} {s : Scanner} :
    Gap ('"' :: rest) gap → StepInString (offset + byteSize gap) ['"'] rest f s →
    Step ⟨.normal, offset, gap ++ '"' :: rest⟩ f s
  | inString {start offset : Nat} {text rest : List Char} {f : Finding} {s : Scanner} :
    StepInString start text.reverse rest f s → Step ⟨.inString start text, offset, rest⟩ f s

theorem Step.skip {offset : Nat} {gap rest : List Char} {f : Finding} {s : Scanner}
    (hgap : Gap rest gap) (h : Step ⟨.normal, offset + byteSize gap, rest⟩ f s) :
    Step ⟨.normal, offset, gap ++ rest⟩ f s := by
  cases h with
  | @lexeme _ gap' text rest found hgap' hne hterminated hunexpected =>
    have hstep : Step ⟨.normal, offset, (gap ++ gap') ++ (text ++ rest)⟩ _ _ :=
      .lexeme (hgap.append hgap') hne hterminated hunexpected
    simpa [Nat.add_assoc] using hstep
  | @opening _ gap' rest _ _ hgap' h =>
    have hstep : Step ⟨.normal, offset, (gap ++ gap') ++ '"' :: rest⟩ f s :=
      .opening (hgap.append hgap') (by simpa [Nat.add_assoc] using h)
    simpa using hstep

/-- A lexeme at the head of the text. -/
theorem Step.of_lexeme {rest : List Char} (f : Finding) (hne : f.text ≠ [])
    (hterminated : f.found ≠ .error .unterminatedString)
    (hunexpected : f.found = .error .unexpectedCharacter → ∃ c, f.text = [c]) :
    Step ⟨.normal, f.start, f.text ++ rest⟩ f ⟨.normal, f.stop, rest⟩ :=
  .lexeme .nil hne hterminated hunexpected

theorem nextNormal_step {offset : Nat} {cs : List Char} {f : Finding} {s : Scanner}
    (h : nextNormal offset cs = (some f, s)) : Step ⟨.normal, offset, cs⟩ f s := by
  fun_induction nextNormal offset cs with
  | case1 => cases h
  | case2 offset c cs lexeme behind hgap ih =>
    rw [← (Lexeme.of_splits c cs).append]
    exact .skip ((Lexeme.of_faithful c cs).gap hgap) (ih h)
  | case3 offset c cs lexeme behind hquote finding scanner hnext =>
    cases h
    have htext := (Lexeme.of_faithful c cs).quote hquote
    obtain ⟨rfl, hrest⟩ : '"' = c ∧ lexeme.rest = cs := by
      simpa [htext] using (Lexeme.of_splits c cs).append
    have hbehind : behind = offset + byteSize ['"'].reverse := by
      simp only [behind, lexeme, htext, List.reverse_singleton]
    have hstep := nextInString_step cs hbehind
    rw [← hrest, hnext] at hstep
    rw [← hrest]
    exact .opening .nil hstep
  | case4 offset c cs lexeme behind t ht =>
    cases h
    rw [← (Lexeme.of_splits c cs).append]
    exact .of_lexeme ⟨offset, _, .ok t⟩ (Lexeme.of_splits c cs).text_ne (by simp) (by simp)
  | case5 offset c cs lexeme behind fault hfault =>
    cases h
    have hfaithful := Lexeme.of_faithful c cs
    rw [← (Lexeme.of_splits c cs).append]
    refine .of_lexeme ⟨offset, _, .error fault⟩ (Lexeme.of_splits c cs).text_ne ?_ ?_
    · rintro ⟨⟩
      exact hfaithful.terminated hfault
    · rintro ⟨⟩
      exact hfaithful.unexpected hfault

theorem nextNormal_none {offset : Nat} {cs : List Char} {s : Scanner}
    (h : nextNormal offset cs = (none, s)) : Gap [] cs ∧ s.mode = .finished := by
  fun_induction nextNormal offset cs with
  | case1 =>
    cases h
    exact ⟨.nil, rfl⟩
  | case2 offset c cs lexeme behind hgap ih =>
    obtain ⟨hrest, hmode⟩ := ih h
    have hsplit := (Lexeme.of_splits c cs).append
    rw [← hsplit]
    refine ⟨Gap.append ?_ hrest, hmode⟩
    rw [List.append_nil]
    exact (Lexeme.of_faithful c cs).gap hgap
  | case3 => cases h
  | case4 => cases h
  | case5 => cases h

/-! ## Scanners on their way -/

/-- What holds of a scanner on its way through a source. -/
def WellFormed (s : Scanner) : Prop :=
  match s.mode with
  | .normal => True
  | .inString start text =>
    (∃ body, text.reverse = '"' :: body) ∧ s.offset = start + byteSize text.reverse
  | .finished => s.rest = []

theorem next_step {s s' : Scanner} {f : Finding} (hs : s.WellFormed)
    (h : s.next = (some f, s')) : Step s f s' := by
  obtain ⟨mode, offset, rest⟩ := s
  cases mode with
  | normal => exact nextNormal_step h
  | inString start text =>
    have hstep := nextInString_step rest hs.2
    cases h
    exact .inString hstep
  | finished => cases h

theorem next_none {s s' : Scanner} (hs : s.WellFormed) (h : s.next = (none, s')) :
    s.mode.isInString = false ∧ Gap [] s.rest ∧ s'.mode = .finished := by
  obtain ⟨mode, offset, rest⟩ := s
  cases mode with
  | normal => exact ⟨rfl, nextNormal_none h⟩
  | inString start text => cases h
  | finished =>
    cases h
    obtain rfl : rest = [] := hs
    exact ⟨rfl, .nil, rfl⟩

theorem StepInString.wellFormed {start : Nat} {opened ahead : List Char} {f : Finding} {s : Scanner}
    (h : StepInString start opened ahead f s) (hopened : ∃ body, opened = '"' :: body) :
    s.WellFormed := by
  obtain ⟨body, rfl⟩ := hopened
  cases h with
  | close => trivial
  | fault => simp [WellFormed]
  | unterminated => rfl

theorem Step.wellFormed {s s' : Scanner} {f : Finding} (h : Step s f s') (hs : s.WellFormed) :
    s'.WellFormed := by
  cases h with
  | lexeme => trivial
  | opening _ h => exact h.wellFormed ⟨[], rfl⟩
  | inString h => exact h.wellFormed hs.1

/-- A step takes a lexeme or goes on in a string literal. -/
theorem Step.lexeme_or_literal {s s' : Scanner} {f : Finding} (h : Step s f s')
    (hs : s.WellFormed) :
    (s'.mode = .normal ∧ f.text ≠ [] ∧ f.found ≠ .error .unterminatedString ∧
      (f.found = .error .unexpectedCharacter → ∃ c, f.text = [c])) ∨
    ∃ start body ahead, StepInString start ('"' :: body) ahead f s' := by
  cases h with
  | lexeme _ hne hterminated hunexpected => exact .inl ⟨rfl, hne, hterminated, hunexpected⟩
  | opening _ h => exact .inr ⟨_, [], _, h⟩
  | inString h =>
    obtain ⟨⟨body, hbody⟩, -⟩ := hs
    exact .inr ⟨_, body, _, hbody ▸ h⟩

theorem Step.text_ne {s s' : Scanner} {f : Finding} (h : Step s f s') (hs : s.WellFormed) :
    f.text ≠ [] := by
  obtain ⟨-, hne, -⟩ | ⟨start, body, ahead, h⟩ := h.lexeme_or_literal hs
  · exact hne
  · cases h <;> simp

theorem Step.text_of_unexpected {s s' : Scanner} {f : Finding} (h : Step s f s')
    (hs : s.WellFormed) (hf : f.found = .error .unexpectedCharacter) : ∃ c, f.text = [c] := by
  obtain ⟨-, -, -, hunexpected⟩ | ⟨start, body, ahead, h⟩ := h.lexeme_or_literal hs
  · exact hunexpected hf
  · cases h with
    | fault _ _ c => exact ⟨c, rfl⟩
    | close | unterminated => cases hf

/-- Where the text that no finding covers yet starts. In a string literal that is its quote. -/
def base (s : Scanner) : Nat :=
  match s.mode with
  | .inString start _ => start
  | _ => s.offset

/-- The text that no finding covers yet. -/
def ahead (s : Scanner) : List Char :=
  match s.mode with
  | .inString _ text => text.reverse ++ s.rest
  | _ => s.rest

theorem ahead_eq_rest {s : Scanner} (h : s.mode.isInString = false) : s.ahead = s.rest := by
  obtain ⟨mode, offset, rest⟩ := s
  cases mode with
  | inString => cases h
  | normal | finished => rfl

@[simp] theorem base_normal (offset : Nat) (rest : List Char) :
    (⟨.normal, offset, rest⟩ : Scanner).base = offset := rfl

@[simp] theorem ahead_normal (offset : Nat) (rest : List Char) :
    (⟨.normal, offset, rest⟩ : Scanner).ahead = rest := rfl

@[simp] theorem base_inString (start offset : Nat) (text rest : List Char) :
    (⟨.inString start text, offset, rest⟩ : Scanner).base = start := rfl

@[simp] theorem ahead_inString (start offset : Nat) (text rest : List Char) :
    (⟨.inString start text, offset, rest⟩ : Scanner).ahead = text.reverse ++ rest := rfl

@[simp] theorem base_finished (offset : Nat) (rest : List Char) :
    (⟨.finished, offset, rest⟩ : Scanner).base = offset := rfl

@[simp] theorem ahead_finished (offset : Nat) (rest : List Char) :
    (⟨.finished, offset, rest⟩ : Scanner).ahead = rest := rfl

/-- A string literal without an end starts with its quote, and nothing is left behind it. -/
theorem Step.of_unterminated {s s' : Scanner} {f : Finding} (h : Step s f s') (hs : s.WellFormed)
    (hf : f.found = .error .unterminatedString) :
    s'.mode = .finished ∧ s'.ahead = [] ∧ ∃ body, f.text = '"' :: body := by
  obtain ⟨-, -, hterminated, -⟩ | ⟨start, body, ahead, h⟩ := h.lexeme_or_literal hs
  · exact absurd hf hterminated
  · cases h with
    | unterminated => exact ⟨rfl, rfl, _, rfl⟩
    | close | fault => cases hf

/-- The scanner stands in the source. -/
def Within (source : List Char) (s : Scanner) : Prop :=
  ∃ before, source = before ++ s.ahead ∧ s.base = byteSize before

/-- The finding is a stretch of the text that was ahead, and the scanner behind it stands in the
same text, right behind the finding unless that was a fault inside a string literal. -/
theorem StepInString.stretch {start : Nat} {opened ahead : List Char} {f : Finding} {s : Scanner}
    (h : StepInString start opened ahead f s) :
    (∃ before after, opened ++ ahead = before ++ (f.text ++ after) ∧
      f.start = start + byteSize before ∧ (s.mode.isInString = false → after = s.ahead)) ∧
    ∃ passed, opened ++ ahead = passed ++ s.ahead ∧ s.base = start + byteSize passed := by
  cases h with
  | close body rest h =>
    subst h
    exact ⟨⟨[], rest, by simp, rfl, fun _ => rfl⟩, opened ++ (body ++ ['"']), by simp, rfl⟩
  | fault body rest c h =>
    subst h
    exact ⟨⟨opened ++ body, rest, by simp, rfl, by simp [Mode.isInString]⟩, [], by simp, rfl⟩
  | unterminated =>
    exact ⟨⟨[], [], by simp, rfl, fun _ => rfl⟩, opened ++ ahead, by simp, rfl⟩

theorem Step.stretch {s s' : Scanner} {f : Finding} (h : Step s f s') :
    (∃ before after, s.ahead = before ++ (f.text ++ after) ∧
      f.start = s.base + byteSize before ∧ (s'.mode.isInString = false → after = s'.ahead)) ∧
    ∃ passed, s.ahead = passed ++ s'.ahead ∧ s'.base = s.base + byteSize passed := by
  cases h with
  | @lexeme offset gap text rest =>
    exact ⟨⟨gap, rest, rfl, rfl, fun _ => rfl⟩, gap ++ text, by simp, by simp [Nat.add_assoc]⟩
  | @opening offset gap rest f s' _ h =>
    obtain ⟨⟨before, after, hsplit, hstart, hafter⟩, passed, hpassed, hbase⟩ := h.stretch
    refine ⟨⟨gap ++ before, after, ?_, ?_, hafter⟩, gap ++ passed, ?_, ?_⟩
    · simpa using hsplit
    · simp [hstart, Nat.add_assoc]
    · simpa using hpassed
    · simp [hbase, Nat.add_assoc]
  | inString h => exact h.stretch

section

variable {source : List Char} {s s' : Scanner} {f : Finding}

theorem Step.within (h : Step s f s') (hs : s.Within source) : s'.Within source := by
  obtain ⟨before, rfl, hbase⟩ := hs
  obtain ⟨-, passed, hpassed, hbase'⟩ := h.stretch
  refine ⟨before ++ passed, ?_, ?_⟩
  · rw [hpassed, List.append_assoc]
  · rw [hbase', hbase, byteSize_append]

/-- Every finding quotes the source. -/
theorem Step.quotes (h : Step s f s') (hs : s.Within source) :
    ∃ before after, source = before ++ (f.text ++ after) ∧ f.start = byteSize before ∧
      (s'.mode.isInString = false → after = s'.ahead) := by
  obtain ⟨before, rfl, hbase⟩ := hs
  obtain ⟨⟨between, after, hsplit, hstart, hafter⟩, -⟩ := h.stretch
  refine ⟨before ++ between, after, ?_, ?_, hafter⟩
  · rw [hsplit, List.append_assoc]
  · rw [hstart, hbase, byteSize_append]

end

/-! ## Scans -/

/-- What holds of a scanner with nothing to find, and is carried back over every step, holds of a
whole scan. -/
theorem findings_induct {P : Scanner → List (Finding × Scanner) → Prop}
    (stop : ∀ {s}, s.mode.isInString = false → Gap [] s.rest → P s [])
    (step : ∀ {s f s'}, s.WellFormed → Step s f s' → P s' s'.findings →
      P s ((f, s') :: s'.findings))
    {s : Scanner} (hs : s.WellFormed) : P s s.findings := by
  fun_induction findings s with
  | case1 s s' hnext =>
    obtain ⟨hmode, hgap, -⟩ := next_none hs hnext
    exact stop hmode hgap
  | case2 s f s' hnext ih =>
    have hstep := next_step hs hnext
    exact step hs hstep (ih (hstep.wellFormed hs))

/-- Every finding is made by a step somewhere in the source, and the scan goes on behind it. -/
theorem findings_split {source : List Char} {s : Scanner} (hs : s.WellFormed)
    (hsource : s.Within source) {pre post : List (Finding × Scanner)} {f : Finding} {s' : Scanner}
    (h : s.findings = pre ++ (f, s') :: post) :
    post = s'.findings ∧ ∃ s₀ : Scanner, s₀.WellFormed ∧ s₀.Within source ∧ Step s₀ f s' := by
  refine findings_induct (P := fun s fs => s.Within source → ∀ pre, fs = pre ++ (f, s') :: post →
    post = s'.findings ∧ ∃ s₀ : Scanner, s₀.WellFormed ∧ s₀.Within source ∧ Step s₀ f s')
    ?_ ?_ hs hsource pre h
  · intro s _ _ _ pre hnil
    simp at hnil
  · intro s f₀ s₀ hs hstep ih hsource pre hsplit
    cases pre with
    | nil =>
      cases hsplit
      exact ⟨rfl, s, hs, hsource, hstep⟩
    | cons x pre => exact ih (hstep.within hsource) pre (List.cons.inj hsplit).2

theorem wellFormed_start (source : List Char) : (start source).WellFormed := trivial

theorem within_start (source : List Char) : (start source).Within source := ⟨[], rfl, rfl⟩

theorem findings_of_next {s s' : Scanner} {f : Finding} (h : s.next = (some f, s')) :
    s.findings = (f, s') :: s'.findings := by
  rw [findings]
  split
  · cases h.symm.trans ‹_›
  · cases h.symm.trans ‹_›
    rfl

theorem findings_of_next_none {s s' : Scanner} (h : s.next = (none, s')) : s.findings = [] := by
  rw [findings]
  split
  · rfl
  · cases h.symm.trans ‹_›

theorem findings_congr {s s' : Scanner} (h : s.next = s'.next) : s.findings = s'.findings := by
  cases hnext : s'.next with
  | mk found s'' =>
    cases found with
    | none => rw [findings_of_next_none hnext, findings_of_next_none (h.trans hnext)]
    | some f => rw [findings_of_next hnext, findings_of_next (h.trans hnext)]

theorem next_of_finished {s : Scanner} (h : s.mode = .finished) : s.next = (none, s) := by
  simp only [next, h]

theorem findings_of_finished {s : Scanner} (h : s.mode = .finished) : s.findings = [] :=
  findings_of_next_none (next_of_finished h)

end Scanner

/-! ## Streams -/

/-- A string literal without an end is the last item of a stream. -/
theorem tokenize_unterminated_last {source : String} {pre post : List Item} {e : LexicalError}
    (h : tokenize source = pre ++ .error e :: post) (he : e.fault = .unterminatedString) :
    post = [] := by
  obtain ⟨pre', rest, hfindings, -, hrest⟩ := List.map_eq_append_iff.mp h
  obtain ⟨x, post', rfl, hx, rfl⟩ := List.map_eq_cons_iff.mp hrest
  obtain ⟨f, s⟩ := x
  obtain ⟨rfl, s₀, hs₀, -, hstep⟩ :=
    Scanner.findings_split (Scanner.wellFormed_start _) (Scanner.within_start _) hfindings
  have hfound : f.found = .error .unterminatedString := by
    simp only [Finding.toItem] at hx
    split at hx
    · cases hx
    · cases hx
      rw [← he]
      assumption
  rw [Scanner.findings_of_finished (hstep.of_unterminated hs₀ hfound).1, List.map_nil]

end TinyC
