import TinyC.Proofs.Parser.Outcome
import TinyC.Proofs.Token.Spelling

/-!
# The token that a syntax error names

A syntax error names the first token that is out of place, by its text. That is what stands in the
source, unless the token is a constant in another spelling than the canonical one.
-/

namespace TinyC

open Grammar Text

/-- A token covers a lexeme, which is its text exactly if it is its canonical spelling. -/
theorem exists_lexeme {source : String} {t : Spanned Token} (h : .ok t ∈ tokenize source) :
    ∃ lexeme, (∃ before after : List Char, source.toList = before ++ (lexeme ++ after) ∧
        t.start = byteSize before ∧ t.stop = byteSize (before ++ lexeme)) ∧
      (t.value.text.toList = lexeme ↔ t.value.Canonical lexeme) := by
  obtain ⟨f, s, hmem, hitem⟩ := exists_mem_scan h
  obtain ⟨s₀, -, hwithin, hstep⟩ := exists_step_of_mem_scan hmem
  obtain ⟨before, after, hsource, hstart, -⟩ := hstep.quotes hwithin
  obtain ⟨hspan, hfound⟩ := Finding.found_of_toItem hitem
  refine ⟨f.text, ⟨before, after, hsource, ?_, ?_⟩, Scanner.text_iff_of_mem_findings hmem hfound⟩
  · rw [hspan, ← hstart]
  · rw [hspan, byteSize_append, ← hstart, Finding.stop]

/-- The error says `text` for the first token with which the source ceases to be the start of a
sentence. That token stands for `lexeme` in the source. -/
structure SyntaxError.Names (L : Language Token) (source : String) (e : SyntaxError)
    (text : String) (t : Spanned Token) (lexeme : List Char) : Prop where
  offending : ∃ before after : List (Spanned Token), tokensOf source = before ++ t :: after ∧
    ∀ n, Viable L (((tokensOf source).map (·.value)).take n) ↔ n ≤ before.length
  position : e.position = positionOf source.toList t.start
  span : ∃ before after : List Char, source.toList = before ++ (lexeme ++ after) ∧
    t.start = byteSize before ∧ t.stop = byteSize (before ++ lexeme)
  /-- What is said is what stands there exactly if it is the canonical spelling. -/
  text_iff : text.toList = lexeme ↔ t.value.Canonical lexeme

theorem SyntaxError.Earliest.names {L : Language Token} {source : String} {e : SyntaxError}
    (h : e.Earliest L source.toList (tokensOf source)) {text : String}
    (htext : e.token = some text) : ∃ t lexeme, e.Names L source text t lexeme := by
  cases h with
  | refused before t after hstream hviable htoken hposition _ =>
    have hmem : t ∈ tokensOf source := by simp [hstream]
    obtain ⟨lexeme, hspan, htext_iff⟩ := exists_lexeme (Item.mem_of_token? hmem)
    cases htext.symm.trans htoken
    exact ⟨t, lexeme, ⟨before, after, hstream, hviable⟩, hposition, hspan, htext_iff⟩
  | ended _ _ htoken =>
    rw [htext] at htoken
    cases htoken

/-- What can stand behind an operand. -/
def Terminal.behindOperand : List Terminal :=
  [.orOr, .andAnd, .eqEq, .ne, .lt, .le, .gt, .ge, .plus, .minus, .star, .slash, .percent].map
    .punct

theorem syntaxError_names (source : String) (e : SyntaxError) (text : String)
    (htext : e.token = some text) :
    (parse source = .error (.syntactic e) →
      ∃ t lexeme, e.Names programs source text t lexeme) ∧
    (parseExpression source = .error (.syntactic e) →
      ∃ t lexeme, e.Names expressions source text t lexeme) := by
  constructor
  · intro h
    obtain ⟨aside, hcollect⟩ := parse_eq_error_iff.mp h
    exact SyntaxError.Earliest.names (programMachine_recognizes.earliest hcollect) htext
  · intro h
    obtain ⟨aside, hcollect⟩ := Machine.parse_eq_error_iff.mp h
    exact SyntaxError.Earliest.names (expressionMachine_recognizes.earliest hcollect) htext

/-- A constant behind a complete expression, in a program and alone. The first is named by another
spelling than the one that stands there, the second is not. -/
theorem misplaced_names :
    (∃ e, parse "int main() { x = 1 010u; }" = .error (.syntactic e) ∧ e.token = some "8" ∧
      ∃ t lexeme, e.Names programs "int main() { x = 1 010u; }" "8" t lexeme) ∧
    ∃ e, parseExpression "1 2.5" = .error (.syntactic e) ∧ e.token = some "2.5" ∧
      ∃ t lexeme, e.Names expressions "1 2.5" "2.5" t lexeme := by
  have hprogram : parse "int main() { x = 1 010u; }" = .error (.syntactic
      ⟨⟨1, 20⟩, "int main() { x = 1 010u; }", some "8",
        Terminal.behindOperand ++ [.punct .semicolon]⟩) := by
    apply parse_eq_error_of_map
    decide +kernel
  have hexpression : parseExpression "1 2.5" = .error (.syntactic
      ⟨⟨1, 3⟩, "1 2.5", some "2.5", Terminal.behindOperand⟩) := by
    decide +kernel
  exact ⟨⟨_, hprogram, rfl, (syntaxError_names _ _ _ rfl).1 hprogram⟩,
    ⟨_, hexpression, rfl, (syntaxError_names _ _ _ rfl).2 hexpression⟩⟩

/-- The token from byte 2 to byte 6 is named by a text that does not stand there. -/
theorem hexadecimal_misnamed :
    ∃ e, parseExpression "1 0x10" = .error (.syntactic e) ∧
      tokensOf "1 0x10" = [⟨0, .int 1, 1⟩, ⟨2, .int 16, 6⟩] ∧
      e.position = positionOf "1 0x10".toList 2 ∧
      splitAt? "1 0x10".toList 2 = some ("1 ".toList, "0x10".toList) ∧
      e.token = some "16" ∧ "16" ≠ "0x10" := by
  have hexpression : parseExpression "1 0x10" = .error (.syntactic
      ⟨⟨1, 3⟩, "1 0x10", some "16", Terminal.behindOperand⟩) := by
    decide +kernel
  refine ⟨_, hexpression, ?_, ?_, ?_, rfl, ?_⟩
  · decide +kernel
  · decide +kernel
  · decide +kernel
  · decide

end TinyC
