import TinyC.Proofs.Parser.Statement

/-!
# Starts of sentences

A token sequence is viable if some sentence starts with it. No state of a machine is a dead end:
some tokens lead on from it to a result. So a machine takes a sequence exactly if it is viable, and
the terminals that it names to a refused token can all follow what it has taken.
-/

namespace TinyC

open Grammar

/-- Some sentence of the language starts with the tokens. -/
def Viable (L : Language Token) (tokens : List Token) : Prop :=
  ∃ sentence ∈ L, tokens <+: sentence

theorem Viable.of_prefix {L : Language Token} {tokens tokens' : List Token}
    (h : Viable L tokens) (hle : tokens' <+: tokens) : Viable L tokens' := by
  obtain ⟨sentence, hmem, hsentence⟩ := h
  exact ⟨sentence, hmem, hle.trans hsentence⟩

/-- Up to a token that is out of place all starts of a stream are viable, and none behind it. -/
theorem Viable.take_iff {L : Language Token} {before after : List Token} {t : Token}
    (hviable : Viable L before) (hnot : ¬Viable L (before ++ [t])) (n : Nat) :
    Viable L ((before ++ t :: after).take n) ↔ n ≤ before.length := by
  constructor
  · intro htake
    by_contra hlt
    obtain ⟨k, rfl⟩ := Nat.exists_eq_add_of_lt (Nat.lt_of_not_le hlt)
    rw [Nat.add_assoc, List.take_length_add_append, List.take_succ_cons] at htake
    exact hnot (htake.of_prefix ⟨after.take k, by simp⟩)
  · intro hle
    rw [List.take_append_of_le_length hle]
    exact hviable.of_prefix (List.take_prefix n before)

namespace Grammar

def programs : Language Token := {tokens | ∃ t : ProgramTree, t.tokens = tokens}

def expressions : Language Token := {tokens | ∃ t : ExpressionTree, t.tokens = tokens}

end Grammar

/-- The terminal that a token is of. String literals are of none. -/
def Terminal.of? : Token → Option Terminal
  | .int _ => some .int
  | .float _ => some .float
  | .str _ => none
  | .ident _ => some .ident
  | .keyword k => some (.keyword k)
  | .punct p => some (.punct p)

/-- Every token of the terminal leads on to the start of some sentence. -/
def CanFollow (L : Language Token) (tokens : List Token) (terminal : Terminal) : Prop :=
  ∀ t, Terminal.of? t = some terminal → Viable L (tokens ++ [t])

/-! ## Machines without dead ends -/

namespace Machine

variable {σ α : Type} {m : Machine σ α} {L : Language Token} {state : σ} {tokens : List Token}

/-- Some tokens lead on to a result. -/
def Completes (m : Machine σ α) (state : σ) : Prop := ∃ rest a, m.Accepts state rest a

theorem Completes.of_result {a : α} (h : m.result? state = some a) : m.Completes state :=
  ⟨[], a, state, rfl, h⟩

theorem Completes.of_feed {state' : σ} {t : Token} (hfeed : m.feed state t = some state')
    (h : m.Completes state') : m.Completes state := by
  obtain ⟨rest, a, haccepts⟩ := h
  exact ⟨t :: rest, a, accepts_cons_iff.mpr ⟨state', hfeed, haccepts⟩⟩

theorem Completes.of_read {state' : σ} (hread : m.read state tokens = some state')
    (h : m.Completes state') : m.Completes state := by
  obtain ⟨rest, a, last, hrest, hresult⟩ := h
  exact ⟨tokens ++ rest, a, last, (read_append_of_read hread rest).trans hrest, hresult⟩

/-- A machine that accepts what trees derive accepts the sentences that they derive. -/
theorem exists_tree_iff {τ : Type} {derived : τ → List Token} {value : τ → α}
    (h : ∀ {tokens a}, m.Accepts m.start tokens a ↔ ∃ t, derived t = tokens ∧ value t = a)
    (tokens : List Token) : (∃ t, derived t = tokens) ↔ ∃ a, m.Accepts m.start tokens a := by
  constructor
  · rintro ⟨t, ht⟩
    exact ⟨value t, h.mpr ⟨t, ht, rfl⟩⟩
  · rintro ⟨a, haccepts⟩
    obtain ⟨t, ht, -⟩ := h.mp haccepts
    exact ⟨t, ht⟩

/-- The machine reads the sentences of a language, has no dead ends, and names only terminals that
it would take. -/
structure Recognizes (m : Machine σ α) (L : Language Token) : Prop where
  mem_iff : ∀ tokens, tokens ∈ L ↔ ∃ a, m.Accepts m.start tokens a
  completes : ∀ state, m.Completes state
  takes : ∀ {state found terminal t}, terminal ∈ m.expected state found →
    Terminal.of? t = some terminal → (m.feed state t).isSome

namespace Recognizes

theorem viable_iff (h : m.Recognizes L) :
    Viable L tokens ↔ ∃ state, m.read m.start tokens = some state := by
  constructor
  · rintro ⟨_, hmem, rest, rfl⟩
    obtain ⟨a, last, hread, -⟩ := (h.mem_iff _).mp hmem
    rw [read_append] at hread
    obtain ⟨state, hstate, -⟩ := Option.bind_eq_some_iff.mp hread
    exact ⟨state, hstate⟩
  · rintro ⟨state, hread⟩
    obtain ⟨rest, a, last, hrest, hresult⟩ := h.completes state
    have haccepts : m.Accepts m.start (tokens ++ rest) a :=
      ⟨last, (read_append_of_read hread rest).trans hrest, hresult⟩
    exact ⟨tokens ++ rest, (h.mem_iff _).mpr ⟨a, haccepts⟩, List.prefix_append _ _⟩

theorem mem_iff_of_read (h : m.Recognizes L) (hread : m.read m.start tokens = some state) :
    tokens ∈ L ↔ ∃ a, m.result? state = some a := by
  simp [h.mem_iff, Accepts, hread]

theorem viable_append_iff (h : m.Recognizes L) (hread : m.read m.start tokens = some state)
    (t : Token) : Viable L (tokens ++ [t]) ↔ (m.feed state t).isSome := by
  rw [h.viable_iff, read_append_of_read hread, read_cons]
  cases m.feed state t with
  | none => simp
  | some next => simp

theorem canFollow_expected (h : m.Recognizes L) (hread : m.read m.start tokens = some state)
    {found : Option Token} {terminal : Terminal} (hmem : terminal ∈ m.expected state found) :
    CanFollow L tokens terminal :=
  fun t ht => (h.viable_append_iff hread t).mpr (h.takes hmem ht)

end Recognizes

end Machine

/-- A machine that takes the sample of a terminal takes every token of it, if that holds of its
steps. -/
theorem takes_of_acceptable {σ : Type} {feed : σ → Token → Option σ} {state : σ}
    (hsample : ∀ {t terminal}, Terminal.of? t = some terminal →
      (feed state t).isSome = (feed state terminal.sample).isSome)
    {terminal : Terminal} (hmem : terminal ∈ acceptable feed state) {t : Token}
    (ht : Terminal.of? t = some terminal) : (feed state t).isSome := by
  rw [hsample ht]
  exact (List.mem_filter.mp hmem).2

/-! ## Expressions -/

/-- A full reduction ends at the bottom of the stack or at a parenthesis on it. -/
theorem reduce_zero_cases (pending : List Pending) (e : Expr) :
    (∃ e', reduce 0 pending e = ([], e')) ∨
    ∃ pending' e', reduce 0 pending e = (.paren :: pending', e') ∧
      pending'.length < pending.length := by
  induction pending generalizing e with
  | nil => exact .inl ⟨e, rfl⟩
  | cons top pending ih =>
    cases top with
    | paren => exact .inr ⟨pending, e, rfl, Nat.lt_succ_self _⟩
    | left lhs op =>
      rw [reduce, if_pos (Nat.zero_le _)]
      refine (ih (.binary op lhs e)).imp_right ?_
      rintro ⟨pending', e', hreduce, hlt⟩
      exact ⟨pending', e', hreduce, Nat.lt_succ_of_lt hlt⟩

namespace ExprState

theorem completes_operator (pending : List Pending) (e : Expr) :
    expressionMachine.Completes (.operator pending e) := by
  obtain ⟨e', hreduce⟩ | ⟨pending', e', hreduce, hlt⟩ := reduce_zero_cases pending e
  · exact .of_result (result?_of_reduce hreduce)
  · have hfeed : expressionMachine.feed (.operator pending e) (.punct .rparen) =
        some (.operator pending' e') := feed_rparen hreduce
    exact .of_feed hfeed (completes_operator pending' e')
termination_by pending.length

theorem completes (st : ExprState) : expressionMachine.Completes st := by
  cases st with
  | operand pending => exact .of_feed (t := .int 0) rfl (completes_operator pending _)
  | operator pending e => exact completes_operator pending e

theorem isSome_feed_sample {st : ExprState} {t : Token} {terminal : Terminal}
    (h : Terminal.of? t = some terminal) :
    (st.feed t).isSome = (st.feed terminal.sample).isSome := by
  cases t with
  | str s => cases h
  | int _ | float _ | ident _ | keyword _ | punct _ => cases h; cases st <;> rfl

/-- Behind an operand the loosest operator may follow, and what closes the innermost parenthesis. -/
theorem feed_orOr {st : ExprState} (h : st.isOperator) : (st.feed (.punct .orOr)).isSome := by
  cases st with
  | operand => cases h
  | operator pending e => rfl

theorem feed_rparen_of_open {st : ExprState} (h : st.isOperator) (hopen : st.result? = none) :
    (st.feed (.punct .rparen)).isSome := by
  cases st with
  | operand => cases h
  | operator pending e =>
    obtain ⟨e', hreduce⟩ | ⟨pending', e', hreduce, -⟩ := reduce_zero_cases pending e
    · cases hopen.symm.trans (result?_of_reduce hreduce)
    · rw [feed_rparen hreduce]
      rfl

/-- A complete expression refuses what closes the construct around it. -/
theorem feed_closer {st : ExprState} {e : Expr} (h : st.result? = some e) (goal : Goal) :
    st.feed (.punct goal.closer) = none := by
  cases st with
  | operand => cases h
  | operator pending e' =>
    obtain ⟨v, hreduce⟩ | ⟨_, _, hreduce, -⟩ := reduce_zero_cases pending e'
    · have hsemicolon : (operator pending e').feed (.punct .semicolon) = none :=
        feed_punct (by decide)
      cases goal with
      | ifCond | whileCond | forStep => exact feed_rparen_nil hreduce
      | initial | assigned | forCond => exact hsemicolon
    · cases h.symm.trans (result?_paren hreduce)

theorem takes_expected {st : ExprState} {found : Option Token} {terminal : Terminal} {t : Token}
    (hmem : terminal ∈ st.expected found) (ht : Terminal.of? t = some terminal) :
    (st.feed t).isSome := by
  rw [expected] at hmem
  split at hmem
  · rename_i hclosing
    obtain ⟨hoperator, -⟩ := Bool.and_eq_true_iff.mp hclosing
    rw [isSome_feed_sample ht]
    split at hmem
    · obtain rfl := List.mem_singleton.mp hmem
      exact feed_orOr hoperator
    · rename_i hopen
      rcases List.mem_pair.mp hmem with rfl | rfl
      · exact feed_orOr hoperator
      · exact feed_rparen_of_open hoperator (by simpa using hopen)
  · exact takes_of_acceptable isSome_feed_sample hmem ht

end ExprState

theorem expressionMachine_recognizes : expressionMachine.Recognizes expressions where
  mem_iff := Machine.exists_tree_iff expressionMachine_accepts_iff
  completes := ExprState.completes
  takes := ExprState.takes_expected

/-! ## Programs -/

namespace State

open Machine

/-- Braces close everything around a statement that has just ended. -/
theorem exists_accepts_rbrace (s : Stmt) (place : Place) :
    ∃ rest p, programMachine.Accepts (.after s place) (.punct .rbrace :: rest) p := by
  induction place generalizing s with
  | body name before => exact ⟨[], _, _, rfl, rfl⟩
  | block before outer ih =>
    obtain ⟨rest, p, haccepts⟩ := ih (.block (s :: before).reverse)
    have hfeed : programMachine.feed (.after s (.block before outer)) (.punct .rbrace) =
      some (.after (.block (s :: before).reverse) outer) := rfl
    exact ⟨.punct .rbrace :: rest, p, accepts_cons_iff.mpr ⟨_, hfeed, haccepts⟩⟩
  | thenArm cond outer ih => exact ih (.ifThen cond s.toBody)
  | elseArm cond thenBody outer ih => exact ih (.ifElse cond thenBody s.toBody)
  | whileBody cond outer ih => exact ih (.while_ cond s.toBody)
  | forBody init cond step outer ih => exact ih (.for_ init cond step s.toBody)

theorem completes_after (s : Stmt) (place : Place) : programMachine.Completes (.after s place) := by
  obtain ⟨rest, p, haccepts⟩ := exists_accepts_rbrace s place
  exact ⟨_, p, haccepts⟩

theorem completes_statement (place : Place) : programMachine.Completes (.statement place) :=
  .of_feed (t := .punct .semicolon) rfl (completes_after .empty place)

/-- An expression can be completed, and then its goal takes over. -/
theorem completes_expr (goal : Goal) (place : Place)
    (h : ∀ v, programMachine.Completes (goal.finish v place)) (e : ExprState) :
    programMachine.Completes (.expr goal place e) := by
  obtain ⟨rest, v, e', hread, hresult⟩ := e.completes
  have hfeed : programMachine.feed (.expr goal place e') (.punct goal.closer) =
      some (goal.finish v place) := by
    refine (feed_expr_none (ExprState.feed_closer hresult goal)).trans ?_
    have hresult' : e'.result? = some v := hresult
    rw [if_pos rfl, hresult', Option.map_some]
  exact .of_read (read_expr hread) (.of_feed hfeed (h v))

theorem completes_stepName (init : Decl) (cond : Expr) (place : Place) :
    programMachine.Completes (.stepName init cond place) :=
  .of_feed (t := .ident "") rfl <| .of_feed (t := .punct .assign) rfl <|
    completes_expr (.forStep init cond "") place (fun _ => completes_statement _) _

theorem completes_finish (d : Decl) (place : Place) (site : DeclSite) :
    programMachine.Completes (site.finish d place) := by
  cases site with
  | statement => exact completes_after _ place
  | forHead => exact completes_expr (.forCond d) place (completes_stepName d · place) _

theorem completes_goal (v : Expr) (place : Place) (goal : Goal) :
    programMachine.Completes (goal.finish v place) := by
  cases goal with
  | initial ty name site => exact completes_finish _ place site
  | assigned name => exact completes_after _ place
  | ifCond | whileCond | forStep => exact completes_statement _
  | forCond init => exact completes_stepName init v place

theorem completes (st : State) : programMachine.Completes st := by
  have hexpr : ∀ goal place e, programMachine.Completes (.expr goal place e) :=
    fun goal place => completes_expr goal place (completes_goal · place goal)
  have hrest : ∀ ty name site place, programMachine.Completes (.declRest ty name site place) :=
    fun ty name site place =>
      .of_feed (t := .punct .semicolon) rfl (completes_finish ⟨ty, name, none⟩ place site)
  have hname : ∀ ty site place, programMachine.Completes (.declName ty site place) :=
    fun ty site place => .of_feed (t := .ident "") rfl (hrest ty "" site place)
  have hclosed : ∀ name, programMachine.Completes (.closed name) :=
    fun name => .of_feed (t := .punct .lbrace) rfl (completes_statement (.body name []))
  have hopened : ∀ name, programMachine.Completes (.opened name) :=
    fun name => .of_feed (t := .punct .rparen) rfl (hclosed name)
  have hnamed : ∀ name, programMachine.Completes (.named name) :=
    fun name => .of_feed (t := .punct .lparen) rfl (hopened name)
  have htyped : programMachine.Completes .typed := .of_feed (t := .ident "") rfl (hnamed "")
  have hforDecl : ∀ place, programMachine.Completes (.forDecl place) :=
    fun place => .of_feed (t := .keyword .int) rfl (hname .int .forHead place)
  cases st with
  | start => exact .of_feed (t := .keyword .int) rfl htyped
  | typed => exact htyped
  | named name => exact hnamed name
  | opened name => exact hopened name
  | closed name => exact hclosed name
  | statement place => exact completes_statement place
  | after s place => exact completes_after s place
  | declName ty site place => exact hname ty site place
  | declRest ty name site place => exact hrest ty name site place
  | assignRest name place => exact .of_feed (t := .punct .assign) rfl (hexpr _ place _)
  | condOpen goal place => exact .of_feed (t := .punct .lparen) rfl (hexpr goal place _)
  | forOpen place => exact .of_feed (t := .punct .lparen) rfl (hforDecl place)
  | forDecl place => exact hforDecl place
  | stepName init cond place => exact completes_stepName init cond place
  | stepRest init cond name place => exact .of_feed (t := .punct .assign) rfl (hexpr _ place _)
  | expr goal place e => exact hexpr goal place e
  | done p => exact .of_result rfl

theorem isSome_feed_sample {st : State} {t : Token} {terminal : Terminal}
    (h : Terminal.of? t = some terminal) :
    (st.feed t).isSome = (st.feed terminal.sample).isSome := by
  cases t with
  | str s => cases h
  | keyword _ | punct _ => cases h; rfl
  | int _ | float _ | ident _ =>
    cases h
    cases st with
    | expr goal place e => cases e <;> rfl
    | _ => rfl

/-- Behind a complete expression what closes its construct may follow, or the loosest operator. -/
theorem isSome_feed_closer {goal : Goal} {place : Place} {e : ExprState} {v : Expr}
    (h : e.result? = some v) : ((expr goal place e).feed (.punct goal.closer)).isSome := by
  rw [feed_expr_none (ExprState.feed_closer h goal), if_pos rfl, h]
  rfl

theorem isSome_feed_expr {goal : Goal} {place : Place} {e : ExprState} {t : Token}
    (h : (e.feed t).isSome) : ((expr goal place e).feed t).isSome := by
  obtain ⟨e', he'⟩ := Option.isSome_iff_exists.mp h
  rw [feed_expr he']
  rfl

theorem takes_expectedClosers {goal : Goal} {place : Place} {e : ExprState} {v : Expr}
    (hoperator : e.isOperator) (h : e.result? = some v) {terminal : Terminal}
    (hmem : terminal ∈ goal.expectedClosers) :
    ((expr goal place e).feed terminal.sample).isSome := by
  have hcloser : ((expr goal place e).feed (.punct goal.closer)).isSome := isSome_feed_closer h
  have hpair : terminal ∈ [.punct .orOr, .punct goal.closer] →
      ((expr goal place e).feed terminal.sample).isSome := by
    intro hmem
    rcases List.mem_pair.mp hmem with rfl | rfl
    · exact isSome_feed_expr (ExprState.feed_orOr hoperator)
    · exact hcloser
  cases goal with
  | assigned | forStep =>
    obtain rfl := List.mem_singleton.mp hmem
    exact hcloser
  | initial | ifCond | whileCond | forCond => exact hpair hmem

theorem takes_expected {st : State} {found : Option Token} {terminal : Terminal} {t : Token}
    (hmem : terminal ∈ st.expected found) (ht : Terminal.of? t = some terminal) :
    (st.feed t).isSome := by
  cases st with
  | expr goal place e =>
    simp only [expected] at hmem
    split at hmem
    · rename_i hclosing
      obtain ⟨hoperator, -⟩ := Bool.and_eq_true_iff.mp hclosing
      rw [isSome_feed_sample ht]
      split at hmem
      · rename_i hresult
        obtain ⟨v, hv⟩ := Option.isSome_iff_exists.mp hresult
        exact takes_expectedClosers hoperator hv hmem
      · rename_i hopen
        rcases List.mem_pair.mp hmem with rfl | rfl
        · exact isSome_feed_expr (ExprState.feed_orOr hoperator)
        · exact isSome_feed_expr
            (ExprState.feed_rparen_of_open hoperator (by simpa using hopen))
    · exact takes_of_acceptable isSome_feed_sample hmem ht
  | _ => exact takes_of_acceptable isSome_feed_sample hmem ht

end State

theorem programMachine_recognizes : programMachine.Recognizes programs where
  mem_iff := Machine.exists_tree_iff programMachine_accepts_iff
  completes := State.completes
  takes := State.takes_expected

end TinyC
