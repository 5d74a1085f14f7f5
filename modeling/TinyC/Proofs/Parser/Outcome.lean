import TinyC.Proofs.Parser.Viable
import TinyC.Proofs.Token.Steps

/-!
# What a parse ends in

A machine ends at the first item that it cannot take. What it has taken by then is viable, so a
syntax error stands at the first token that no sentence goes on with, and a lexical error is
reported only if no syntax error comes before it.

A program is read from the tokens of its source alone. Only an unterminated string reaches the
parser besides them, and it is always the last item.
-/

namespace TinyC

open Grammar

/-! ## Sources -/

/-- The tokens of a source, in order. -/
def tokensOf (source : String) : List (Spanned Token) := (tokenize source).filterMap Item.token?

/-- The lexical errors of a source, in order. -/
def errorsOf (source : String) : List LexicalError := (tokenize source).filterMap Item.error?

/-- The source ends inside a string literal. -/
def Unterminated (source : String) : Prop :=
  ∃ e, .error e ∈ tokenize source ∧ e.fault = .unterminatedString

theorem LexicalError.isRecoverable_eq_false_iff {e : LexicalError} :
    e.isRecoverable = false ↔ e.fault = .unterminatedString := by
  simp [isRecoverable]

/-- Only an unterminated string is not skipped. -/
theorem allSkipped_iff (source : String) :
    Item.AllSkipped LexicalError.isRecoverable (tokenize source) ↔ ¬Unterminated source := by
  unfold Item.AllSkipped Unterminated
  simp [LexicalError.isRecoverable]

/-- An unterminated string is the last item, so that all errors before it are skipped. -/
theorem split_of_unterminated {source : String} {taken rest : List Item} {e : LexicalError}
    (h : tokenize source = taken ++ .error e :: rest) (he : e.fault = .unterminatedString) :
    rest = [] ∧ Item.AllSkipped LexicalError.isRecoverable taken := by
  refine ⟨tokenize_unterminated_last h he, fun e' he' => ?_⟩
  by_contra hfault
  rw [Bool.not_eq_true, LexicalError.isRecoverable_eq_false_iff] at hfault
  obtain ⟨before, after, rfl⟩ := List.append_of_mem he'
  rw [List.append_assoc] at h
  -- Another such error would be the last item as well.
  simpa using tokenize_unterminated_last h hfault

theorem exists_split_of_unterminated {source : String} (h : Unterminated source) :
    ∃ taken e, tokenize source = taken ++ [.error e] ∧ e.fault = .unterminatedString ∧
      Item.AllSkipped LexicalError.isRecoverable taken := by
  obtain ⟨e, hmem, he⟩ := h
  obtain ⟨taken, rest, hsplit⟩ := List.append_of_mem hmem
  obtain ⟨rfl, hskipped⟩ := split_of_unterminated hsplit he
  exact ⟨taken, e, hsplit, he, hskipped⟩

/-! ## Syntax errors stand as early as possible -/

/-- The error stands at the first token with which a stream ceases to be the start of a sentence,
or at the end of a stream that is no sentence yet. All that it names could have stood there. -/
inductive SyntaxError.Earliest (L : Language Token) (source : List Char)
    (stream : List (Spanned Token)) (e : SyntaxError) : Prop
  | refused (before : List (Spanned Token)) (t : Spanned Token) (after : List (Spanned Token))
      (stream_eq : stream = before ++ t :: after)
      (viable : ∀ n, Viable L ((stream.map (·.value)).take n) ↔ n ≤ before.length)
      (token : e.token = some t.value.text)
      (position : e.position = Text.positionOf source t.start)
      (expected : ∀ terminal ∈ e.expected, CanFollow L (before.map (·.value)) terminal)
  | ended
      (viable : Viable L (stream.map (·.value)))
      (incomplete : stream.map (·.value) ∉ L)
      (token : e.token = none)
      (position : e.position = Text.positionOf source ((stream.getLast?.map (·.stop)).getD 0))
      (expected : ∀ terminal ∈ e.expected, CanFollow L (stream.map (·.value)) terminal)

namespace Machine

variable {σ α : Type} {m : Machine σ α} {L : Language Token} {skips : LexicalError → Bool}
  {source : List Char} {items : List Item}

theorem Recognizes.earliest (h : m.Recognizes L) {e : SyntaxError} {aside : List LexicalError}
    (herror : m.collect skips source items = .error (.syntactic e) aside) :
    e.Earliest L source (items.filterMap Item.token?) := by
  have hends := m.collect_ends skips source items
  rw [herror] at hends
  cases hends with
  | @truncated _ state _ hread hresult =>
    have hincomplete : (items.filterMap Item.token?).map (·.value) ∉ L := by
      simp [h.mem_iff_of_read hread, hresult]
    exact .ended (h.viable_iff.mpr ⟨state, hread⟩) hincomplete rfl rfl
      fun _ => h.canFollow_expected hread
  | @refused taken rest t state _ hread hfeed =>
    have hviable : Viable L ((taken.filterMap Item.token?).map (·.value)) :=
      h.viable_iff.mpr ⟨state, hread⟩
    have hnot : ¬Viable L ((taken.filterMap Item.token?).map (·.value) ++ [t.value]) := by
      simp [h.viable_append_iff hread, hfeed]
    rw [List.filterMap_append, Item.filterMap_token?_ok]
    refine .refused _ t _ rfl ?_ rfl rfl fun _ => h.canFollow_expected hread
    intro n
    rw [List.map_append, List.map_cons, ← List.length_map (f := (·.value))]
    exact hviable.take_iff hnot n

/-! ## Results and lexical errors -/

/-- A lexical error is reported if all before it starts a sentence, which may be complete. -/
theorem Recognizes.collect_eq_lexical_iff (h : m.Recognizes L) {e : LexicalError} :
    (∃ aside, m.collect skips source items = .error (.lexical e) aside) ↔
      ∃ taken rest : List Item, items = taken ++ .error e :: rest ∧
        Item.AllSkipped skips taken ∧ skips e = false ∧
        Viable L ((taken.filterMap Item.token?).map (·.value)) := by
  constructor
  · rintro ⟨aside, hcollect⟩
    have hends := m.collect_ends skips source items
    rw [hcollect] at hends
    cases hends with
    | lexical hskipped hread hskips =>
      exact ⟨_, _, rfl, hskipped, hskips, h.viable_iff.mpr ⟨_, hread⟩⟩
  · rintro ⟨taken, rest, rfl, hskipped, hskips, hviable⟩
    obtain ⟨state, hread⟩ := h.viable_iff.mp hviable
    refine ⟨taken.filterMap Item.error?, ?_⟩
    rw [collect, run_append hskipped hread, run, hskips]
    rfl

theorem Recognizes.exists_collect_eq_ok_iff (h : m.Recognizes L) :
    (∃ a aside, m.collect skips source items = .ok a aside) ↔
      Item.AllSkipped skips items ∧ (items.filterMap Item.token?).map (·.value) ∈ L := by
  simp only [collect_eq_ok_iff, h.mem_iff, exists_and_left, exists_eq, and_true]

/-- What is neither a result nor a lexical error is a syntax error. -/
theorem exists_collect_eq_syntactic_iff (m : Machine σ α) (skips : LexicalError → Bool)
    (source : List Char) (items : List Item) :
    (∃ e aside, m.collect skips source items = .error (.syntactic e) aside) ↔
      ¬(∃ a aside, m.collect skips source items = .ok a aside) ∧
        ¬∃ e aside, m.collect skips source items = .error (.lexical e) aside := by
  have hends := m.collect_ends skips source items
  generalize m.collect skips source items = result at hends ⊢
  cases hends with
  | complete | truncated | refused | lexical => simp

end Machine

/-! ## Agreement -/

/-- Two outcomes agree up to places in the source. -/
inductive Agree {α : Type} : Except Error α → Except Error α → Prop
  | ok (a : α) : Agree (.ok a) (.ok a)
  | lexical (e e' : LexicalError) : Agree (.error (.lexical e)) (.error (.lexical e'))
  | syntactic {e e' : SyntaxError} :
      e.token = e'.token → e.detail = e'.detail →
      Agree (.error (.syntactic e)) (.error (.syntactic e'))

/-- Two items hold the same token, or both hold an error. -/
inductive Item.Agree : Item → Item → Prop
  | token {t t' : Spanned Token} : t.value = t'.value → Agree (.ok t) (.ok t')
  | error (e e' : LexicalError) : Agree (.error e) (.error e')

theorem Item.agree_map_ok {tokens tokens' : List (Spanned Token)}
    (h : tokens.map (·.value) = tokens'.map (·.value)) :
    List.Forall₂ Agree (tokens.map .ok) (tokens'.map .ok) := by
  rw [List.forall₂_map_left_iff, List.forall₂_map_right_iff]
  rw [← List.forall₂_eq_eq_eq, List.forall₂_map_left_iff, List.forall₂_map_right_iff] at h
  exact h.imp fun _ _ => .token

/-- The item is a token, or an error that is not skipped. -/
def Item.isKept (skips : LexicalError → Bool) : Item → Bool
  | .ok _ => true
  | .error e => !skips e

theorem Item.AllSkipped.filter_isKept {skips : LexicalError → Bool} {items : List Item}
    (h : AllSkipped skips items) :
    items.filter (isKept skips) = (items.filterMap token?).map .ok := by
  rw [List.map_filterMap, ← List.filterMap_eq_filter]
  refine List.filterMap_congr fun item hitem => ?_
  cases item with
  | ok t => rfl
  | error e => simp [Option.guard, isKept, token?, h e hitem]

theorem SyntaxError.agree_report {α : Type} (source source' : List Char) (location location' : Nat)
    (token : Option Token) (expected : List Terminal) :
    Agree (α := α) (.error (.syntactic (.report source location token expected)))
      (.error (.syntactic (.report source' location' token expected))) :=
  .syntactic rfl rfl

namespace Machine

variable {σ α : Type} {m : Machine σ α} {skips : LexicalError → Bool} {source source' : List Char}

/-- Skipping errors is as good as reading a stream without them. -/
theorem outcome_run_filter (state : σ) (behind : Nat) (items : List Item)
    (aside aside' : List LexicalError) :
    outcome (m.run skips source state behind items aside) =
      outcome (m.run (fun _ => false) source state behind (items.filter (Item.isKept skips))
        aside') := by
  induction items generalizing state behind aside with
  | nil =>
    simp only [List.filter_nil, run]
    cases m.result? state with
    | none => rfl
    | some a => rfl
  | cons item items ih =>
    cases item with
    | error e =>
      cases hskips : skips e with
      | true =>
        rw [run_skip hskips, List.filter_cons_of_neg (by simp [Item.isKept, hskips])]
        exact ih state behind _
      | false =>
        rw [List.filter_cons_of_pos (by simp [Item.isKept, hskips]), run, hskips]
        rfl
    | ok t =>
      rw [List.filter_cons_of_pos rfl]
      cases hfeed : m.feed state t.value with
      | none =>
        rw [run, run, hfeed]
        rfl
      | some next =>
        rw [run_feed hfeed, run_feed hfeed]
        exact ih next t.stop aside

theorem run_agree {items items' : List Item} (h : List.Forall₂ Item.Agree items items')
    (state : σ) (behind behind' : Nat) (aside aside' : List LexicalError) :
    Agree (outcome (m.run (fun _ => false) source state behind items aside))
      (outcome (m.run (fun _ => false) source' state behind' items' aside')) := by
  induction h generalizing state behind behind' with
  | nil =>
    simp only [run]
    cases m.result? state with
    | none => exact SyntaxError.agree_report ..
    | some a => exact .ok a
  | cons hitem _ ih =>
    cases hitem with
    | error e e' => exact .lexical e e'
    | token hvalue =>
      simp only [run, hvalue]
      cases m.feed state _ with
      | none => exact SyntaxError.agree_report ..
      | some next => exact ih next _ _

end Machine

/-! ## Programs and expressions -/

theorem parse_eq_error_of_map {source : String} {e : Error}
    (h : (parse source).map (fun _ => ()) = .error e) : parse source = .error e := by
  cases hparse : parse source with
  | ok parsed =>
    rw [hparse] at h
    cases h
  | error e' =>
    rw [hparse] at h
    exact congrArg _ (Except.error.inj h)

/-- A syntax error stands at the first token that is out of place, or at the end of a source in
which something is missing. -/
theorem syntaxError_earliest (source : String) (e : SyntaxError) :
    (parse source = .error (.syntactic e) →
      e.Earliest programs source.toList (tokensOf source)) ∧
    (parseExpression source = .error (.syntactic e) →
      e.Earliest expressions source.toList (tokensOf source)) := by
  constructor
  · intro h
    obtain ⟨aside, hcollect⟩ := parse_eq_error_iff.mp h
    exact programMachine_recognizes.earliest hcollect
  · intro h
    obtain ⟨aside, hcollect⟩ := Machine.parse_eq_error_iff.mp h
    exact expressionMachine_recognizes.earliest hcollect

/-- An operand is missing in a program, and a parenthesis in an expression. -/
theorem missing_earliest :
    (∃ e, parse "int main() { x = 1 @ + ; }" = .error (.syntactic e) ∧ e.token = some ";" ∧
      e.Earliest programs "int main() { x = 1 @ + ; }".toList
        (tokensOf "int main() { x = 1 @ + ; }")) ∧
    ∃ e, parseExpression "1 + (2" = .error (.syntactic e) ∧ e.token = none ∧
      e.Earliest expressions "1 + (2".toList (tokensOf "1 + (2") := by
  have hprogram : parse "int main() { x = 1 @ + ; }" = .error (.syntactic
      ⟨⟨1, 24⟩, "int main() { x = 1 @ + ; }", some ";",
        [.ident, .int, .float, .punct .lparen]⟩) := by
    apply parse_eq_error_of_map
    decide +kernel
  have hexpression : parseExpression "1 + (2" = .error (.syntactic
      ⟨⟨1, 7⟩, "1 + (2", none, [.punct .orOr, .punct .rparen]⟩) := by
    decide +kernel
  exact ⟨⟨_, hprogram, rfl, (syntaxError_earliest _ _).1 hprogram⟩,
    ⟨_, hexpression, rfl, (syntaxError_earliest _ _).2 hexpression⟩⟩

/-- A program is read from its tokens alone. -/
structure ReadsTokens (source : String) : Prop where
  /-- A sentence gives its program, and all errors of the scan are diagnostics. -/
  program : ∀ t : ProgramTree, t.tokens = (tokensOf source).map (·.value) →
    ¬Unterminated source → parse source = .ok ⟨t.value, errorsOf source⟩
  lexical : ∀ e, parse source = .error (.lexical e) ↔
    (tokenize source).getLast? = some (.error e) ∧ e.fault = .unterminatedString ∧
      Viable programs ((tokensOf source).map (·.value))
  syntactic : (∃ e, parse source = .error (.syntactic e)) ↔
    Unterminated source ∧ ¬Viable programs ((tokensOf source).map (·.value)) ∨
      ¬Unterminated source ∧ (tokensOf source).map (·.value) ∉ programs
  /-- Spacing, comments and illegal characters do not matter. -/
  agree : ∀ source', (tokensOf source).map (·.value) = (tokensOf source').map (·.value) →
    (Unterminated source ↔ Unterminated source') →
    Agree ((parse source).map (·.program)) ((parse source').map (·.program))
  /-- In an expression every lexical error counts. -/
  expression : ∀ e, parseExpression source = .error (.lexical e) ↔
    ∃ (tokens : List (Spanned Token)) (rest : List Item),
      tokenize source = tokens.map .ok ++ .error e :: rest ∧
        Viable expressions (tokens.map (·.value))

/-- What the parser of programs gets to see of a source. -/
def parserItems (source : String) : List Item :=
  (tokenize source).filter (Item.isKept LexicalError.isRecoverable)

theorem parserItems_of_terminated {source : String} (h : ¬Unterminated source) :
    parserItems source = (tokensOf source).map .ok :=
  ((allSkipped_iff source).mpr h).filter_isKept

theorem parserItems_of_unterminated {source : String} (h : Unterminated source) :
    ∃ e, parserItems source = (tokensOf source).map .ok ++ [.error e] := by
  obtain ⟨taken, e, hsplit, he, hskipped⟩ := exists_split_of_unterminated h
  refine ⟨e, ?_⟩
  rw [parserItems, tokensOf, hsplit, List.filter_append, hskipped.filter_isKept]
  simp [Item.isKept, LexicalError.isRecoverable_eq_false_iff.mpr he]

theorem parserItems_agree {source source' : String}
    (h : (tokensOf source).map (·.value) = (tokensOf source').map (·.value))
    (hunterminated : Unterminated source ↔ Unterminated source') :
    List.Forall₂ Item.Agree (parserItems source) (parserItems source') := by
  by_cases hsource : Unterminated source
  · obtain ⟨e, hitems⟩ := parserItems_of_unterminated hsource
    obtain ⟨e', hitems'⟩ := parserItems_of_unterminated (hunterminated.mp hsource)
    rw [hitems, hitems']
    exact List.rel_append (Item.agree_map_ok h) (.cons (.error e e') .nil)
  · rw [parserItems_of_terminated hsource,
      parserItems_of_terminated (hunterminated.not.mp hsource)]
    exact Item.agree_map_ok h

theorem map_program_parse (source : String) :
    (parse source).map (·.program) = programMachine.parse source.toList (parserItems source) := by
  refine Eq.trans ?_ (Machine.outcome_run_filter programMachine.start 0 (tokenize source) [] [])
  unfold parse Machine.collect
  cases programMachine.run LexicalError.isRecoverable source.toList programMachine.start 0
      (tokenize source) [] with
  | ok a aside => rfl
  | error e aside => rfl

theorem parse_lexical_iff {source : String} {e : LexicalError} :
    parse source = .error (.lexical e) ↔
      (tokenize source).getLast? = some (.error e) ∧ e.fault = .unterminatedString ∧
        Viable programs ((tokensOf source).map (·.value)) := by
  rw [parse_eq_error_iff, programMachine_recognizes.collect_eq_lexical_iff]
  constructor
  · rintro ⟨taken, rest, hsplit, -, hskips, hviable⟩
    have he := LexicalError.isRecoverable_eq_false_iff.mp hskips
    obtain ⟨rfl, -⟩ := split_of_unterminated hsplit he
    refine ⟨by rw [hsplit, List.getLast?_concat], he, ?_⟩
    simpa [tokensOf, hsplit] using hviable
  · rintro ⟨hlast, he, hviable⟩
    obtain ⟨taken, hsplit⟩ := List.getLast?_eq_some_iff.mp hlast
    obtain ⟨-, hskipped⟩ := split_of_unterminated hsplit he
    refine ⟨taken, [], hsplit, hskipped, LexicalError.isRecoverable_eq_false_iff.mpr he, ?_⟩
    simpa [tokensOf, hsplit] using hviable

theorem exists_parse_lexical_iff (source : String) :
    (∃ e, parse source = .error (.lexical e)) ↔
      Unterminated source ∧ Viable programs ((tokensOf source).map (·.value)) := by
  simp only [parse_lexical_iff]
  constructor
  · rintro ⟨e, hlast, hfault, hviable⟩
    exact ⟨⟨e, List.mem_of_getLast? hlast, hfault⟩, hviable⟩
  · rintro ⟨hsource, hviable⟩
    obtain ⟨taken, e, hsplit, he, -⟩ := exists_split_of_unterminated hsource
    exact ⟨e, by rw [hsplit, List.getLast?_concat], he, hviable⟩

theorem exists_parse_syntactic_iff (source : String) :
    (∃ e, parse source = .error (.syntactic e)) ↔
      Unterminated source ∧ ¬Viable programs ((tokensOf source).map (·.value)) ∨
        ¬Unterminated source ∧ (tokensOf source).map (·.value) ∉ programs := by
  have hlexical := exists_parse_lexical_iff source
  simp only [parse_eq_error_iff] at hlexical ⊢
  rw [Machine.exists_collect_eq_syntactic_iff, programMachine_recognizes.exists_collect_eq_ok_iff,
    hlexical, allSkipped_iff]
  by_cases hsource : Unterminated source
  · simp [hsource]
  · simp [hsource, tokensOf]

theorem parseExpression_lexical_iff {source : String} {e : LexicalError} :
    parseExpression source = .error (.lexical e) ↔
      ∃ (tokens : List (Spanned Token)) (rest : List Item),
        tokenize source = tokens.map .ok ++ .error e :: rest ∧
          Viable expressions (tokens.map (·.value)) := by
  rw [parseExpression, Machine.parse_eq_error_iff,
    expressionMachine_recognizes.collect_eq_lexical_iff]
  constructor
  · rintro ⟨taken, rest, hsplit, hskipped, -, hviable⟩
    rw [hskipped.eq_map_ok] at hsplit
    exact ⟨_, rest, hsplit, hviable⟩
  · rintro ⟨tokens, rest, hsplit, hviable⟩
    refine ⟨_, rest, hsplit, Item.allSkipped_map_ok tokens, rfl, ?_⟩
    rwa [Item.filterMap_token?_map_ok]

theorem parse_reads_tokens (source : String) : ReadsTokens source where
  program t ht hsource := by
    refine parse_eq_ok_iff.mpr ⟨(allSkipped_iff source).mpr hsource, ?_, rfl⟩
    exact programMachine_accepts_iff.mpr ⟨t, ht, rfl⟩
  lexical _ := parse_lexical_iff
  syntactic := exists_parse_syntactic_iff source
  agree source' h hunterminated := by
    rw [map_program_parse, map_program_parse]
    exact Machine.run_agree (parserItems_agree h hunterminated) _ _ _ _ _
  expression _ := parseExpression_lexical_iff

end TinyC
