import TinyC.Proofs.Parser.Expression

/-!
# Reading programs

The machine for programs takes exactly the token sequences that the grammar derives, and its
result is the value of the derivation.

Behind a statement the machine need not be where it would be if the statement had been one token:
the bodies that it completes are still open, as an `else` may follow. What counts is that the state
takes the same tokens in the same way, all of them behind a closed statement, and all but `else`
behind any other.
-/

namespace TinyC

open Grammar

/-! ## Steps -/

namespace State

theorem feed_statement {place : Place} {t : Token} : (statement place).feed t = place.feed t := rfl

theorem feed_after {s : Stmt} {place : Place} {t : Token} :
    (after s place).feed t =
      if t = .keyword .else_ then (place.putElse? s).map .statement else (place.put s).feed t :=
  rfl

theorem feed_expr {goal : Goal} {place : Place} {e e' : ExprState} {t : Token}
    (h : e.feed t = some e') : (expr goal place e).feed t = some (.expr goal place e') := by
  delta feed
  dsimp only
  rw [h]

theorem feed_expr_none {goal : Goal} {place : Place} {e : ExprState} {t : Token}
    (h : e.feed t = none) : (expr goal place e).feed t =
      if t = .punct goal.closer then e.result?.map (goal.finish · place) else none := by
  delta feed
  dsimp only
  rw [h]

/-- The states take the same tokens in the same way. They need to agree on `else` only behind a
closed statement. -/
def Like (k : Form) (st st' : State) : Prop :=
  ∀ t, (t = .keyword .else_ → k.Closed) → st.feed t = st'.feed t

theorem Like.trans {k : Form} {st st' st'' : State} (h : Like k st st') (h' : Like k st' st'') :
    Like k st st'' :=
  fun t ht => (h t ht).trans (h' t ht)

/-- A form that says less about `else` asks for less. -/
theorem Like.mono {k k' : Form} {st st' : State} (h : Like k st st') (hk : k'.Closed → k.Closed) :
    Like k' st st' :=
  fun t ht => h t fun helse => hk (ht helse)

theorem Like.refl (k : Form) (st : State) : Like k st st := fun _ _ => rfl

theorem after_like {k : Form} (hk : ¬ k.Closed) (s : Stmt) (place : Place) :
    Like k (after s place) (statement (place.put s)) := by
  intro t ht
  rw [feed_after, if_neg fun helse => hk (ht helse), feed_statement]

theorem Like.read {k : Form} {st st' : State} (h : Like k st st') {first : Token}
    (hfirst : first ≠ .keyword .else_) (rest : List Token) :
    programMachine.read st (first :: rest) = programMachine.read st' (first :: rest) := by
  have hfeed : programMachine.feed st first = programMachine.feed st' first :=
    h first fun helse => absurd helse hfirst
  rw [Machine.read_cons, Machine.read_cons, hfeed]

end State

/-! ## Derivations are read -/

open Machine in
theorem read_expr {goal : Goal} {place : Place} {e e' : ExprState} {tokens : List Token}
    (h : expressionMachine.read e tokens = some e') :
    programMachine.read (.expr goal place e) tokens = some (.expr goal place e') := by
  induction tokens generalizing e with
  | nil =>
    cases h
    rfl
  | cons t tokens ih =>
    obtain ⟨next, hfeed, hread⟩ := Option.bind_eq_some_iff.mp h
    have hfeed' : programMachine.feed (.expr goal place e) t = some (.expr goal place next) :=
      State.feed_expr hfeed
    rw [read_cons_of_feed hfeed', ih hread]

/-- An expression is read up to the operator that ends it. -/
theorem read_expression (t : ExpressionTree) (goal : Goal) (place : Place) (rest : List Token) :
    programMachine.read (.expr goal place .start) (t.tokens ++ .punct goal.closer :: rest) =
      programMachine.read (goal.finish t.value place) rest := by
  obtain ⟨st, hread, hresult, hparen, hsemicolon⟩ := t.read_start
  have hrefused : st.feed (.punct goal.closer) = none := by
    cases goal <;> assumption
  have hfeed : programMachine.feed (.expr goal place st) (.punct goal.closer) =
      some (goal.finish t.value place) := by
    refine (State.feed_expr_none hrefused).trans ?_
    rw [if_pos rfl, hresult, Option.map_some]
  rw [Machine.read_append_of_read (read_expr hread), Machine.read_cons_of_feed hfeed]

section

variable (place : Place) (rest : List Token)

theorem read_condTokens_if (cond : ExpressionTree) :
    programMachine.read (.statement place) (condTokens .if_ cond ++ rest) =
      programMachine.read (.statement (.thenArm cond.value place)) rest := by
  rw [condTokens, List.cons_append, List.cons_append, List.append_assoc]
  exact read_expression cond .ifCond place rest

theorem read_condTokens_while (cond : ExpressionTree) :
    programMachine.read (.statement place) (condTokens .while_ cond ++ rest) =
      programMachine.read (.statement (.whileBody cond.value place)) rest := by
  rw [condTokens, List.cons_append, List.cons_append, List.append_assoc]
  exact read_expression cond .whileCond place rest

/-- A declaration is read alike in both places, behind its type. -/
theorem read_declName (d : DeclTree) (site : DeclSite) :
    programMachine.read (.declName d.ty site place)
        (.ident d.name :: (DeclTree.initialTokens d.initial ++ .punct .semicolon :: rest)) =
      programMachine.read (site.finish d.value place) rest := by
  obtain ⟨ty, name, initial⟩ := d
  cases initial with
  | none => rfl
  | some e => exact read_expression e (.initial ty name site) place rest

theorem read_declTree {st : State} {site : DeclSite} (d : DeclTree)
    (h : st.feed (typeToken d.ty) = some (.declName d.ty site place)) :
    programMachine.read st (d.tokens ++ rest) =
      programMachine.read (site.finish d.value place) rest := by
  have htokens : d.tokens ++ rest = typeToken d.ty :: .ident d.name ::
      (DeclTree.initialTokens d.initial ++ .punct .semicolon :: rest) := by
    simp [DeclTree.tokens]
  have hfeed : programMachine.feed st (typeToken d.ty) = some (.declName d.ty site place) := h
  rw [htokens, Machine.read_cons_of_feed hfeed, read_declName]

theorem read_forHead (h : ForHead) :
    programMachine.read (.statement place) (h.tokens ++ rest) =
      programMachine.read
        (.statement (.forBody h.init.value h.cond.value h.step.value place)) rest := by
  obtain ⟨init, cond, step⟩ := h
  have hinit : (State.forDecl place).feed (typeToken init.ty) =
      some (.declName init.ty .forHead place) := by
    cases init.ty <;> rfl
  calc programMachine.read (.statement place) (ForHead.tokens ⟨init, cond, step⟩ ++ rest)
      = programMachine.read (.forDecl place) (init.tokens ++
          (cond.tokens ++ .punct .semicolon :: (step.tokens ++ .punct .rparen :: rest))) := by
        simp only [ForHead.tokens, List.cons_append, List.append_assoc, List.nil_append]
        rfl
    _ = programMachine.read (.expr (.forCond init.value) place .start)
          (cond.tokens ++ .punct .semicolon :: (step.tokens ++ .punct .rparen :: rest)) :=
        read_declTree place _ init hinit
    _ = programMachine.read (.stepName init.value cond.value place)
          (step.tokens ++ .punct .rparen :: rest) :=
        read_expression cond (.forCond init.value) place _
    _ = programMachine.read (.statement (.forBody init.value cond.value step.value place)) rest :=
        read_expression step.expr (.forStep init.value cond.value step.name) place rest

end

/-- The place behind a list of statements. -/
def Place.putAll (ss : List Stmt) (place : Place) : Place := ss.foldl (fun p s => p.put s) place

namespace Place

theorem putAll_body (name : String) (before ss : List Stmt) :
    putAll ss (.body name before) = .body name (ss.reverse ++ before) := by
  induction ss generalizing before with
  | nil => rfl
  | cons s ss ih => simpa [putAll, put] using ih (s :: before)

theorem putAll_block (before ss : List Stmt) (outer : Place) :
    putAll ss (.block before outer) = .block (ss.reverse ++ before) outer := by
  induction ss generalizing before with
  | nil => rfl
  | cons s ss ih => simpa [putAll, put] using ih (s :: before)

end Place

/-- Wherever a statement may start, the tokens lead to a state like the given one. -/
def Leads (k : Form) (tokens : List Token) (behind : Place → State) : Prop :=
  ∀ place st, State.Like .statement st (.statement place) →
    ∃ st', programMachine.read st tokens = some st' ∧ State.Like k st' (behind place)

namespace Leads

variable {k : Form} {tokens : List Token}

theorem mono {k' : Form} {behind : Place → State} (h : Leads k tokens behind)
    (hk : k'.Closed → k.Closed) : Leads k' tokens behind := by
  intro place st hst
  obtain ⟨st', hread, hlike⟩ := h place st hst
  exact ⟨st', hread, hlike.mono hk⟩

/-- What is read by the place alone. -/
theorem of_read {behind : Place → State} {first : Token} {rest : List Token}
    (hfirst : first ≠ .keyword .else_)
    (h : ∀ place, programMachine.read (.statement place) (first :: rest) = some (behind place)) :
    Leads k (first :: rest) behind :=
  fun place _ hst => ⟨behind place, (hst.read hfirst rest).trans (h place), .refl _ _⟩

/-- What is read as a head and a body, where the tokens behind the body are those behind the
whole. -/
theorem of_body (inner : Place → Place) {behind behind' : Place → State} {first : Token}
    {rest : List Token} (hfirst : first ≠ .keyword .else_) (hbody : Leads k tokens behind)
    (hhead : ∀ place, programMachine.read (.statement place) (first :: rest) =
      programMachine.read (.statement (inner place)) tokens)
    (hbehind : ∀ place, State.Like k (behind (inner place)) (behind' place)) :
    Leads k (first :: rest) behind' := by
  intro place st hst
  obtain ⟨st', hread, hlike⟩ := hbody (inner place) _ (.refl _ _)
  refine ⟨st', ?_, hlike.trans (hbehind place)⟩
  rw [hst.read hfirst, hhead, hread]

theorem ifThen (cond : ExpressionTree) {s : Stmt} (h : Leads .statement tokens (.after s)) :
    Leads .statement (condTokens .if_ cond ++ tokens) (.after (.ifThen cond.value s.toBody)) := by
  refine of_body (.thenArm cond.value) (by decide) h (read_condTokens_if · tokens cond) ?_
  intro place t ht
  rw [State.after_like id _ _ t ht, State.after_like id _ _ t ht, Place.put]

theorem ifElse (cond : ExpressionTree) {s s' : Stmt} {tokens' : List Token}
    (hthen : Leads .closed tokens (.after s)) (helse : Leads k tokens' (.after s')) :
    Leads k (condTokens .if_ cond ++ (tokens ++ .keyword .else_ :: tokens'))
      (.after (.ifElse cond.value s.toBody s'.toBody)) := by
  refine of_body (.elseArm cond.value s.toBody) (by decide) helse ?_ fun _ => .refl _ _
  intro place
  obtain ⟨st, hread, hlike⟩ := hthen (.thenArm cond.value place) _ (.refl _ _)
  have hfeed : programMachine.feed st (.keyword .else_) =
      some (.statement (.elseArm cond.value s.toBody place)) :=
    hlike _ fun _ => trivial
  exact ((read_condTokens_if place _ cond).trans (Machine.read_append_of_read hread _)).trans
    (Machine.read_cons_of_feed hfeed _)

theorem while_ (cond : ExpressionTree) {s : Stmt} (h : Leads k tokens (.after s)) :
    Leads k (condTokens .while_ cond ++ tokens) (.after (.while_ cond.value s.toBody)) :=
  of_body (.whileBody cond.value) (by decide) h (read_condTokens_while · tokens cond)
    fun _ => .refl _ _

theorem for_ (head : ForHead) {s : Stmt} (h : Leads k tokens (.after s)) :
    Leads k (head.tokens ++ tokens)
      (.after (.for_ head.init.value head.cond.value head.step.value s.toBody)) :=
  of_body (.forBody head.init.value head.cond.value head.step.value) (by decide) h
    (read_forHead · tokens head) fun _ => .refl _ _

theorem block {ss : List Stmt} (h : Leads .list tokens (.statement <| ·.putAll ss)) :
    Leads k (.punct .lbrace :: (tokens ++ [.punct .rbrace])) (.after (.block ss)) := by
  refine of_read (by decide) fun place => ?_
  obtain ⟨st, hread, hlike⟩ := h (.block [] place) _ (.refl _ _)
  have hfeed : programMachine.feed st (.punct .rbrace) = some (.after (.block ss) place) := by
    refine (hlike (.punct .rbrace) nofun).trans ?_
    rw [State.feed_statement, Place.putAll_block, List.append_nil, Place.feed, List.reverse_reverse]
  exact (Machine.read_append_of_read hread _).trans (Machine.read_cons_of_feed hfeed _)

theorem cons {s : Stmt} {ss : List Stmt} {tokens' : List Token}
    (hs : Leads .statement tokens (.after s))
    (hss : Leads .list tokens' (.statement <| ·.putAll ss)) :
    Leads .list (tokens ++ tokens') (.statement <| ·.putAll (s :: ss)) := by
  intro place st hst
  obtain ⟨st', hread, hlike⟩ := hs place st hst
  obtain ⟨st'', hread', hlike'⟩ := hss _ st' (hlike.trans (State.after_like id s place))
  exact ⟨st'', (Machine.read_append_of_read hread _).trans hread', hlike'⟩

end Leads

namespace Grammar.StmtTree

/-- The state behind a statement, as far as a state is told by the tokens it takes. -/
def behind : {k : Form} → StmtTree k → Place → State
  | .list, t, place => .statement (place.putAll t.value)
  | .statement, t, place | .opened, t, place | .closed, t, place | .simple, t, place =>
    .after t.value place

theorem leads {k : Form} (t : StmtTree k) : Leads k t.tokens t.behind := by
  induction t with
  | ofOpen s ih => exact ih
  | ofClosed s ih => exact ih.mono False.elim
  | ofSimple s ih => exact ih
  | openIf cond body ih => exact ih.ifThen cond
  | openIfElse cond thenArm elseArm iht ihe => exact iht.ifElse cond ihe
  | closedIfElse cond thenArm elseArm iht ihe => exact iht.ifElse cond ihe
  | openWhile cond body ih => exact ih.while_ cond
  | closedWhile cond body ih => exact ih.while_ cond
  | openFor head body ih => exact ih.for_ head
  | closedFor head body ih => exact ih.for_ head
  | assign a =>
    exact .of_read nofun fun place => read_expression a.expr (.assigned a.name) place []
  | decl d =>
    refine .of_read (by cases d.ty <;> decide) fun place => ?_
    have hty : (State.statement place).feed (typeToken d.ty) =
        some (.declName d.ty .statement place) := by
      cases d.ty <;> rfl
    have hread := read_declTree place [] d hty
    rwa [List.append_nil] at hread
  | block body ih => exact ih.block
  | empty => exact .of_read (by decide) fun _ => rfl
  | nil => exact fun place st hst => ⟨st, rfl, hst⟩
  | cons s body ihs ihb => exact ihs.cons ihb

end Grammar.StmtTree

theorem Grammar.ProgramTree.accepts (t : ProgramTree) :
    programMachine.Accepts .start t.tokens t.value := by
  obtain ⟨st, hread, hlike⟩ := t.body.leads (.body t.name []) _ (.refl _ _)
  have hfeed : programMachine.feed st (.punct .rbrace) = some (.done t.value) := by
    refine (hlike (.punct .rbrace) nofun).trans ?_
    rw [StmtTree.behind, Place.putAll_body, List.append_nil, State.feed_statement, Place.feed,
      List.reverse_reverse, ProgramTree.value]
  refine ⟨.done t.value, ?_, rfl⟩
  exact (Machine.read_append_of_read hread _).trans (Machine.read_cons_of_feed hfeed _)

/-! ## What is read is derived -/

namespace Grammar.StmtTree

/-- A list of statements continued at its end. -/
def snoc : StmtTree .list → StmtTree .statement → StmtTree .list
  | .nil, s => .cons s .nil
  | .cons first body, s => .cons first (body.snoc s)

theorem tokens_snoc : (body : StmtTree .list) → (s : StmtTree .statement) →
    (body.snoc s).tokens = body.tokens ++ s.tokens
  | .nil, s => by simp [snoc, tokens]
  | .cons first body, s => by simp [snoc, tokens, tokens_snoc body s]

theorem value_snoc : (body : StmtTree .list) → (s : StmtTree .statement) →
    (body.snoc s).value = List.append (α := Stmt) body.value [s.value]
  | .nil, s => by simp [snoc, value]
  | .cons first body, s => by simp [snoc, value, value_snoc body s]

theorem reverse_value_snoc (body : StmtTree .list) (s : StmtTree .statement) :
    List.reverse (α := Stmt) (body.snoc s).value =
      s.value :: List.reverse (α := Stmt) body.value := by
  rw [value_snoc]
  exact List.reverse_concat

end Grammar.StmtTree

/-- The tokens read so far leave the next statement at the place. -/
inductive Place.Holds : Place → List Token → Prop
  | body (name : String) (items : StmtTree .list) :
    Holds (.body name (List.reverse items.value))
      (.keyword .int :: .ident name :: .punct .lparen :: .punct .rparen :: .punct .lbrace ::
        items.tokens)
  | block {outer before} (items : StmtTree .list) : Holds outer before →
    Holds (.block (List.reverse items.value) outer) (before ++ .punct .lbrace :: items.tokens)
  | thenArm {outer before} (cond : ExpressionTree) : Holds outer before →
    Holds (.thenArm cond.value outer) (before ++ condTokens .if_ cond)
  | elseArm {outer before} (cond : ExpressionTree) (thenArm : StmtTree .closed) :
    Holds outer before → Holds (.elseArm cond.value (Stmt.toBody thenArm.value) outer)
      (before ++ (condTokens .if_ cond ++ (thenArm.tokens ++ [.keyword .else_])))
  | whileBody {outer before} (cond : ExpressionTree) : Holds outer before →
    Holds (.whileBody cond.value outer) (before ++ condTokens .while_ cond)
  | forBody {outer before} (head : ForHead) : Holds outer before →
    Holds (.forBody head.init.value head.cond.value head.step.value outer) (before ++ head.tokens)

namespace Place.Holds

variable {place : Place} {before : List Token}

theorem put (h : place.Holds before) (s : StmtTree .statement) :
    (place.put s.value).Holds (before ++ s.tokens) := by
  induction h generalizing s with
  | body name items =>
    have hplace := Holds.body name (items.snoc s)
    rwa [StmtTree.tokens_snoc, StmtTree.reverse_value_snoc] at hplace
  | block items h =>
    have hplace := Holds.block (items.snoc s) h
    rw [StmtTree.tokens_snoc, StmtTree.reverse_value_snoc] at hplace
    simpa [Place.put] using hplace
  | thenArm cond h ih =>
    simpa [StmtTree.tokens, StmtTree.value, Place.put] using ih (.ofOpen (.openIf cond s))
  | elseArm cond thenArm h ih => simpa [Place.put] using ih (.ifElse cond thenArm s)
  | whileBody cond h ih => simpa [Place.put] using ih (.while_ cond s)
  | forBody head h ih => simpa [Place.put] using ih (.for_ head s)

theorem putElse {place' : Place} (h : place.Holds before) (s : StmtTree .closed)
    (hput : place.putElse? s.value = some place') :
    place'.Holds (before ++ (s.tokens ++ [.keyword .else_])) := by
  induction h generalizing s with
  | body | block => cases hput
  | thenArm cond h =>
    cases hput
    simpa using Holds.elseArm cond s h
  | elseArm cond thenArm h ih =>
    simpa [StmtTree.tokens] using ih (.closedIfElse cond thenArm s) hput
  | whileBody cond h ih => simpa [StmtTree.tokens] using ih (.closedWhile cond s) hput
  | forBody head h ih => simpa [StmtTree.tokens] using ih (.closedFor head s) hput

end Place.Holds

/-- The tokens between the start of the statement and a declaration. -/
def DeclSite.opening : DeclSite → List Token
  | .statement => []
  | .forHead => [.keyword .for_, .punct .lparen]

/-- The tokens between the start of the statement and the expression. -/
inductive Goal.Opening : Goal → List Token → Prop
  | initial (ty : Ty) (name : String) (site : DeclSite) :
    Opening (.initial ty name site) (site.opening ++ [typeToken ty, .ident name, .punct .assign])
  | assigned (name : String) : Opening (.assigned name) [.ident name, .punct .assign]
  | ifCond : Opening .ifCond [.keyword .if_, .punct .lparen]
  | whileCond : Opening .whileCond [.keyword .while_, .punct .lparen]
  | forCond (init : DeclTree) :
    Opening (.forCond init.value) (.keyword .for_ :: .punct .lparen :: init.tokens)
  | forStep (init : DeclTree) (cond : ExpressionTree) (name : String) :
    Opening (.forStep init.value cond.value name)
      (.keyword .for_ :: .punct .lparen :: (init.tokens ++ (cond.tokens ++
        [.punct .semicolon, .ident name, .punct .assign])))

/-- The tokens that a state inside a statement has read, from the start of the statement on. -/
inductive State.Inside : State → Place → List Token → Prop
  | declName {place} (ty : Ty) (site : DeclSite) :
    Inside (.declName ty site place) place (site.opening ++ [typeToken ty])
  | declRest {place} (ty : Ty) (name : String) (site : DeclSite) :
    Inside (.declRest ty name site place) place (site.opening ++ [typeToken ty, .ident name])
  | assignRest {place} (name : String) : Inside (.assignRest name place) place [.ident name]
  | condOpen {goal place tokens} : goal.Opening (tokens ++ [.punct .lparen]) →
    Inside (.condOpen goal place) place tokens
  | forOpen {place} : Inside (.forOpen place) place [.keyword .for_]
  | forDecl {place} : Inside (.forDecl place) place [.keyword .for_, .punct .lparen]
  | stepName {place} (init : DeclTree) (cond : ExpressionTree) :
    Inside (.stepName init.value cond.value place) place
      (.keyword .for_ :: .punct .lparen :: (init.tokens ++ (cond.tokens ++ [.punct .semicolon])))
  | stepRest {place} (init : DeclTree) (cond : ExpressionTree) (name : String) :
    Inside (.stepRest init.value cond.value name place) place
      (.keyword .for_ :: .punct .lparen :: (init.tokens ++ (cond.tokens ++
        [.punct .semicolon, .ident name])))
  | expr {goal place e opening tokens} : goal.Opening opening → e.Reads tokens →
    Inside (.expr goal place e) place (opening ++ tokens)
  /-- The statement has just ended. -/
  | after {place} (s : StmtTree .simple) : Inside (.after s.value place) place s.tokens

/-- The tokens that a state has read. -/
inductive State.Reads : State → List Token → Prop
  | start : Reads .start []
  | typed : Reads .typed [.keyword .int]
  | named (name : String) : Reads (.named name) [.keyword .int, .ident name]
  | opened (name : String) : Reads (.opened name) [.keyword .int, .ident name, .punct .lparen]
  | closed (name : String) :
    Reads (.closed name) [.keyword .int, .ident name, .punct .lparen, .punct .rparen]
  | statement {place before} : place.Holds before → Reads (.statement place) before
  | inside {st place before tokens} : place.Holds before → Inside st place tokens →
    Reads st (before ++ tokens)
  | done (t : ProgramTree) : Reads (.done t.value) t.tokens

theorem State.Reads.of_eq {st : State} {tokens tokens' : List Token} (h : st.Reads tokens)
    (heq : tokens = tokens') : st.Reads tokens' :=
  heq ▸ h

section

variable {place : Place} {before : List Token}

theorem Goal.Opening.reads_start {goal : Goal} {opening : List Token} (h : goal.Opening opening)
    (hplace : place.Holds before) :
    (State.expr goal place .start).Reads (before ++ opening) := by
  have hstart : ExprState.start.Reads [] := Stacked.nil
  exact (State.Reads.inside hplace (.expr h hstart)).of_eq (by simp)

theorem DeclSite.reads_finish (hplace : place.Holds before) (site : DeclSite) (d : DeclTree) :
    (site.finish d.value place).Reads (before ++ (site.opening ++ d.tokens)) := by
  cases site with
  | statement => exact .inside hplace (.after (.decl d))
  | forHead => exact (Goal.Opening.forCond d).reads_start hplace

theorem Goal.Opening.reads_finish {goal : Goal} {opening : List Token} (h : goal.Opening opening)
    (hplace : place.Holds before) (e : ExpressionTree) :
    (goal.finish e.value place).Reads
      (before ++ (opening ++ (e.tokens ++ [.punct goal.closer]))) := by
  cases h with
  | initial ty name site =>
    refine (site.reads_finish hplace ⟨ty, name, some e⟩).of_eq ?_
    simp [DeclTree.tokens, DeclTree.initialTokens, Goal.closer]
  | assigned name =>
    refine (State.Reads.inside hplace (.after (.assign ⟨name, e⟩))).of_eq ?_
    simp [AssignTree.tokens, StmtTree.tokens, Goal.closer]
  | ifCond =>
    refine (State.Reads.statement (.thenArm e hplace)).of_eq ?_
    simp [condTokens, Goal.closer]
  | whileCond =>
    refine (State.Reads.statement (.whileBody e hplace)).of_eq ?_
    simp [condTokens, Goal.closer]
  | forCond init =>
    refine (State.Reads.inside hplace (.stepName init e)).of_eq ?_
    simp [Goal.closer]
  | forStep init cond name =>
    refine (State.Reads.statement (.forBody ⟨init, cond, ⟨name, e⟩⟩ hplace)).of_eq ?_
    simp [ForHead.tokens, AssignTree.tokens, Goal.closer]

/-- The first token of a statement, or the brace behind the last one. -/
theorem Place.Holds.feed (h : place.Holds before) {t : Token} {st : State}
    (hfeed : place.feed t = some st) : st.Reads (before ++ [t]) := by
  cases t with
  | ident name => cases hfeed; exact .inside h (.assignRest name)
  | keyword k =>
    cases k with
    | int => cases hfeed; exact .inside h (.declName .int .statement)
    | float => cases hfeed; exact .inside h (.declName .float .statement)
    | if_ => cases hfeed; exact .inside h (.condOpen .ifCond)
    | while_ => cases hfeed; exact .inside h (.condOpen .whileCond)
    | for_ => cases hfeed; exact .inside h .forOpen
    | _ => cases hfeed
  | punct p =>
    cases p with
    | lbrace => cases hfeed; exact .statement (.block .nil h)
    | semicolon => cases hfeed; exact .inside h (.after .empty)
    | rbrace =>
      cases h with
      | body name items =>
        cases hfeed
        rw [List.reverse_reverse]
        exact .done ⟨name, items⟩
      | block items h =>
        cases hfeed
        rw [List.reverse_reverse]
        refine (State.Reads.inside h (.after (.block items))).of_eq ?_
        simp [StmtTree.tokens]
      | _ => cases hfeed
    | _ => cases hfeed
  | _ => cases hfeed

end

namespace State

variable {place : Place} {before tokens : List Token} {st st' : State} {t : Token}

/-- Inside a statement only one token, or one of two, can follow. -/
theorem Inside.feed (h : st.Inside place tokens) (hplace : place.Holds before)
    (hfeed : st.feed t = some st') : st'.Reads (before ++ (tokens ++ [t])) := by
  cases h with
  | declName ty site =>
    cases t with
    | ident name =>
      cases hfeed
      exact (Reads.inside hplace (.declRest ty name site)).of_eq (by simp)
    | _ => cases hfeed
  | declRest ty name site =>
    cases t with
    | punct p =>
      cases p with
      | assign =>
        cases hfeed
        exact ((Goal.Opening.initial ty name site).reads_start hplace).of_eq (by simp)
      | semicolon =>
        cases hfeed
        refine (site.reads_finish hplace ⟨ty, name, none⟩).of_eq ?_
        simp [DeclTree.tokens, DeclTree.initialTokens]
      | _ => cases hfeed
    | _ => cases hfeed
  | assignRest name =>
    cases t with
    | punct p =>
      cases p with
      | assign => cases hfeed; exact (Goal.Opening.assigned name).reads_start hplace
      | _ => cases hfeed
    | _ => cases hfeed
  | condOpen hopening =>
    cases t with
    | punct p =>
      cases p with
      | lparen => cases hfeed; exact hopening.reads_start hplace
      | _ => cases hfeed
    | _ => cases hfeed
  | forOpen =>
    cases t with
    | punct p =>
      cases p with
      | lparen => cases hfeed; exact .inside hplace .forDecl
      | _ => cases hfeed
    | _ => cases hfeed
  | forDecl =>
    cases t with
    | keyword k =>
      cases k with
      | int => cases hfeed; exact .inside hplace (.declName .int .forHead)
      | float => cases hfeed; exact .inside hplace (.declName .float .forHead)
      | _ => cases hfeed
    | _ => cases hfeed
  | stepName init cond =>
    cases t with
    | ident name =>
      cases hfeed
      exact (Reads.inside hplace (.stepRest init cond name)).of_eq (by simp)
    | _ => cases hfeed
  | stepRest init cond name =>
    cases t with
    | punct p =>
      cases p with
      | assign =>
        cases hfeed
        exact ((Goal.Opening.forStep init cond name).reads_start hplace).of_eq (by simp)
      | _ => cases hfeed
    | _ => cases hfeed
  | @expr goal _ e opening tokens hopening hreads =>
    cases he : e.feed t with
    | some e' =>
      rw [feed_expr he] at hfeed
      cases hfeed
      exact (Reads.inside hplace (.expr hopening (hreads.feed he))).of_eq (by simp)
    | none =>
      rw [feed_expr_none he] at hfeed
      split at hfeed
      · obtain ⟨v, hresult, rfl⟩ := Option.map_eq_some_iff.mp hfeed
        obtain ⟨e', rfl, rfl⟩ := hreads.result hresult
        subst t
        exact (hopening.reads_finish hplace e').of_eq (by simp)
      · cases hfeed
  | after s =>
    rw [feed_after] at hfeed
    split at hfeed
    · obtain ⟨place', hput, rfl⟩ := Option.map_eq_some_iff.mp hfeed
      subst t
      exact .statement (hplace.putElse (.ofSimple s) hput)
    · have hput := hplace.put (.ofClosed (.ofSimple s))
      exact (hput.feed hfeed).of_eq (by simp [StmtTree.tokens])

theorem Reads.feed (h : st.Reads tokens) (hfeed : st.feed t = some st') :
    st'.Reads (tokens ++ [t]) := by
  cases h with
  | start =>
    cases t with
    | keyword k =>
      cases k with
      | int => cases hfeed; exact .typed
      | _ => cases hfeed
    | _ => cases hfeed
  | typed =>
    cases t with
    | ident name => cases hfeed; exact .named name
    | _ => cases hfeed
  | named name =>
    cases t with
    | punct p =>
      cases p with
      | lparen => cases hfeed; exact .opened name
      | _ => cases hfeed
    | _ => cases hfeed
  | opened name =>
    cases t with
    | punct p =>
      cases p with
      | rparen => cases hfeed; exact .closed name
      | _ => cases hfeed
    | _ => cases hfeed
  | closed name =>
    cases t with
    | punct p =>
      cases p with
      | lbrace => cases hfeed; exact .statement (.body name .nil)
      | _ => cases hfeed
    | _ => cases hfeed
  | statement hplace => exact hplace.feed hfeed
  | inside hplace h => exact (h.feed hplace hfeed).of_eq (by simp)
  | done => cases hfeed

theorem Reads.result {p : Program} (h : st.Reads tokens) (hresult : st.result? = some p) :
    ∃ t : ProgramTree, t.tokens = tokens ∧ t.value = p := by
  cases h with
  | done t => cases hresult; exact ⟨t, rfl, rfl⟩
  | inside hplace h => cases h <;> cases hresult
  | _ => cases hresult

end State

/-- The machine reads exactly the programs that the grammar derives. -/
theorem programMachine_accepts_iff {tokens : List Token} {p : Program} :
    programMachine.Accepts .start tokens p ↔
      ∃ t : ProgramTree, t.tokens = tokens ∧ t.value = p := by
  constructor
  · intro ⟨st, hread, hresult⟩
    exact (Machine.read_induct (I := State.Reads) State.Reads.feed .start hread).result hresult
  · rintro ⟨t, rfl, rfl⟩
    exact t.accepts

/-! ## Parsers -/

/-- The parsers accept exactly what the grammar derives and give it the value of a derivation. All
derivations of one token sequence have the same value. -/
theorem parse_tokens_iff_derivation (source : List Char) (tokens : List (Spanned Token)) :
    (∀ p, programMachine.parse source (tokens.map .ok) = .ok p ↔
      ∃ t : ProgramTree, t.tokens = tokens.map (·.value) ∧ t.value = p) ∧
    (∀ e, expressionMachine.parse source (tokens.map .ok) = .ok e ↔
      ∃ t : ExpressionTree, t.tokens = tokens.map (·.value) ∧ t.value = e) ∧
    {p | ∃ t : ProgramTree, t.tokens = tokens.map (·.value) ∧ t.value = p}.Subsingleton ∧
    {e | ∃ t : ExpressionTree, t.tokens = tokens.map (·.value) ∧ t.value = e}.Subsingleton := by
  refine ⟨fun p => ?_, fun e => ?_, fun p hp p' hp' => ?_, fun e he e' he' => ?_⟩
  · exact Machine.parse_eq_ok_iff.trans programMachine_accepts_iff
  · exact Machine.parse_eq_ok_iff.trans expressionMachine_accepts_iff
  · exact (programMachine_accepts_iff.mpr hp).unique (programMachine_accepts_iff.mpr hp')
  · exact (expressionMachine_accepts_iff.mpr he).unique (expressionMachine_accepts_iff.mpr he')

end TinyC
