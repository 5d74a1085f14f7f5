import TinyC.Proofs.Parser.Outcome
import TinyC.Proofs.Text.Lines
import TinyC.Proofs.Token.Coverage

/-!
# Where errors stand

Every error stands between two characters of the source: a lexical error where its lexeme begins, a
syntax error where a token begins or where the last one ends. So the line that an error quotes is
the one that its line number names.
-/

namespace TinyC

open Text

/-- The position and the quotation belong to one place between two characters of the source. -/
structure Placed (source : String) (location : Nat) (p : Position) (context : String) : Prop where
  boundary : Boundary source.toList location
  shows : Shows source.toList location p context.toList
  /-- The quotation is the line that the line number names. -/
  line : ((lines source.toList)[p.line - 1]?).map trim = some context.toList

variable {source : String}

theorem Text.Boundary.placed {location : Nat} (h : Boundary source.toList location) :
    Placed source location (positionOf source.toList location)
      (String.ofList (contextOf source.toList location)) := by
  have hshows := h.shows
  rw [← String.toList_ofList (l := contextOf source.toList location)] at hshows
  exact ⟨h, hshows, hshows.line⟩

theorem LexicalError.placed {e : LexicalError} (h : .error e ∈ tokenize source) :
    Placed source e.location e.position e.context := by
  obtain ⟨before, after, hsource, hlocation, -⟩ := (quotes_of_mem h).stretch
  obtain ⟨f, s, -, hitem⟩ := exists_mem_scan h
  have hreport := (Finding.fault_of_toItem hitem).1
  have hboundary : Boundary source.toList e.location := ⟨before, _, hsource, hlocation⟩
  rw [hreport] at hboundary ⊢
  exact hboundary.placed

/-! ## Syntax errors -/

/-- A token covers a stretch between two places. -/
theorem Spanned.Covers.boundary {t : Spanned Token} (h : t.Covers source) :
    Boundary source.toList t.start ∧ Boundary source.toList t.stop := by
  obtain ⟨before, lexeme, after, hsource, -, hstart, hstop⟩ := h
  exact ⟨⟨before, _, hsource, hstart⟩, ⟨before ++ lexeme, after, by simpa using hsource, hstop⟩⟩

/-- The end of the last token, or of the empty text in front of all tokens. -/
theorem Machine.boundary_endOf {tokens : List (Spanned Token)}
    (h : ∀ t ∈ tokens, t.Covers source) : Boundary source.toList (endOf 0 tokens) := by
  cases hlast : tokens.getLast? with
  | none =>
    rw [endOf, hlast]
    exact ⟨[], _, rfl, rfl⟩
  | some t =>
    rw [endOf, hlast]
    exact (h t (List.mem_of_getLast? hlast)).boundary.2

namespace Machine

variable {σ α : Type} {m : Machine σ α} {skips : LexicalError → Bool} {aside : List LexicalError}

theorem syntaxError_placed {e : SyntaxError}
    (h : m.collect skips source.toList (tokenize source) = .error (.syntactic e) aside) :
    ∃ location token, e = .report source.toList location token e.expected ∧
      Placed source location e.position e.context := by
  have hends := m.collect_ends skips source.toList (tokenize source)
  generalize hitems : tokenize source = items at h hends
  rw [h] at hends
  cases hends with
  | truncated =>
    have hcovers : ∀ t ∈ items.filterMap Item.token?, Spanned.Covers source t := fun t ht =>
      covers_of_mem (hitems ▸ Item.mem_of_token? ht)
    exact ⟨_, none, rfl, (boundary_endOf hcovers).placed⟩
  | @refused taken rest t =>
    have hcovers : t.Covers source := covers_of_mem (hitems ▸ by simp)
    exact ⟨_, some t.value, rfl, hcovers.boundary.1.placed⟩

theorem lexicalError_mem {items : List Item} {e : LexicalError}
    (h : m.collect skips source.toList items = .error (.lexical e) aside) : .error e ∈ items := by
  have hends := m.collect_ends skips source.toList items
  rw [h] at hends
  cases hends with
  | lexical => simp

end Machine

/-! ## Sources -/

/-- Positions and quotations tell the same story of a source, at every place and in every error. -/
structure PositionsAgree (source : String) : Prop where
  shows : ∀ offset, Boundary source.toList offset ∨ byteSize source.toList ≤ offset →
    Shows source.toList offset (positionOf source.toList offset) (contextOf source.toList offset)
  ordered : ∀ p q, Boundary source.toList p → Boundary source.toList q → p < q →
    (positionOf source.toList p).Precedes (positionOf source.toList q)
  lexical : ∀ e, .error e ∈ tokenize source → Placed source e.location e.position e.context
  diagnostic : ∀ parsed, parse source = .ok parsed → ∀ e ∈ parsed.diagnostics,
    Placed source e.location e.position e.context
  fatal : ∀ e, parse source = .error (.lexical e) ∨ parseExpression source = .error (.lexical e) →
    Placed source e.location e.position e.context
  syntactic : ∀ e,
    parse source = .error (.syntactic e) ∨ parseExpression source = .error (.syntactic e) →
    ∃ location token, e = .report source.toList location token e.expected ∧
      Placed source location e.position e.context

theorem positions_agree (source : String) : PositionsAgree source where
  shows offset h := h.elim Boundary.shows shows_of_le
  ordered _ _ := Boundary.precedes
  lexical _ := LexicalError.placed
  diagnostic parsed h e he := by
    obtain ⟨-, -, hdiagnostics⟩ := parse_eq_ok_iff.mp h
    rw [hdiagnostics] at he
    exact LexicalError.placed (Item.mem_of_error? he)
  fatal e h := by
    rcases h with h | h
    · obtain ⟨aside, hcollect⟩ := parse_eq_error_iff.mp h
      exact LexicalError.placed (Machine.lexicalError_mem hcollect)
    · obtain ⟨aside, hcollect⟩ := Machine.parse_eq_error_iff.mp h
      exact LexicalError.placed (Machine.lexicalError_mem hcollect)
  syntactic e h := by
    rcases h with h | h
    · obtain ⟨aside, hcollect⟩ := parse_eq_error_iff.mp h
      exact Machine.syntaxError_placed hcollect
    · obtain ⟨aside, hcollect⟩ := Machine.parse_eq_error_iff.mp h
      exact Machine.syntaxError_placed hcollect

end TinyC
