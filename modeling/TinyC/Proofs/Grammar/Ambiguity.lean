import TinyC.Proofs.Parser.Expression

/-!
# Ambiguity

The plain grammar of statements lets any statement be the body of a control statement. It derives
the same token sequences as the grammar with open and closed statements, but some of them in more
than one way. The split leaves one derivation of each, in which every `else` belongs to the nearest
`if` before it that has none yet.
-/

namespace TinyC.Grammar

/-! ## Expressions -/

namespace Layer

/-- The sequence does not end in an operator that takes a phrase of the layer apart. -/
def EndsBelow (l : Layer) (tokens : List Token) : Prop :=
  ∀ p op, tokens.getLast? = some (.punct p) → Operator.ofPunct? p = some op → op.level < l.rank

variable {l m : Layer} {tokens : List Token}

theorem EndsBelow.operand (h : l.EndsBelow tokens) (hm : l.operand? = some m) :
    m.EndsBelow tokens := by
  intro p op hlast hop
  rw [rank_operand hm]
  exact Nat.lt_succ_of_lt (h p op hlast hop)

theorem EndsBelow.nil (l : Layer) : l.EndsBelow [] := nofun

theorem EndsBelow.operator {p : Punct} {op : Operator} (h : (p, op) ∈ l.operators)
    (hm : l.operand? = some m) : m.EndsBelow (tokens ++ [.punct p]) := by
  intro p' op' hlast hop
  simp only [List.getLast?_append, List.getLast?_singleton] at hlast
  cases hlast
  obtain ⟨hpunct, hlevel⟩ := spec_of_mem h
  cases hpunct.symm.trans hop
  rw [hlevel, rank_operand hm]
  exact Nat.lt_succ_self _

theorem EndsBelow.lparen (l : Layer) : l.EndsBelow (tokens ++ [.punct .lparen]) := by
  intro p op hlast hop
  simp only [List.getLast?_append, List.getLast?_singleton] at hlast
  cases hlast
  cases hop

/-- What ends in an operator of the layer, or of a tighter one, is no start for it. -/
theorem EndsBelow.not_operator {p : Punct} {op : Operator} (h : (p, op) ∈ l.operators) :
    ¬ l.EndsBelow (tokens ++ [.punct p]) := by
  intro hends
  obtain ⟨hpunct, hlevel⟩ := spec_of_mem h
  have hlt := hends p op (by simp) hpunct
  exact absurd hlevel (Nat.ne_of_lt hlt)

end Layer

namespace ExprTree

/-- What stands before the right operand ends in the operator. -/
theorem append_tokens_binary {l m : Layer} {p : Punct} {op : Operator} (hop : (p, op) ∈ l.operators)
    (hm : l.operand? = some m) (lhs : ExprTree l) (rhs : ExprTree m) (u : List Token) :
    u ++ tokens (.binary p op hop hm lhs rhs) =
      ((u ++ lhs.tokens) ++ [.punct p]) ++ rhs.tokens := by
  simp [tokens]

theorem append_tokens_paren (e : ExpressionTree) (u : List Token) :
    u ++ tokens (.paren e) = ((u ++ [.punct .lparen]) ++ e.tokens) ++ [.punct .rparen] := by
  simp [tokens]

theorem tokens_primary (t : ExprTree .primary) : ∃ x, t.tokens = [x] ∧ x ≠ .punct .rparen := by
  cases t with
  | binary _ _ hop => cases hop
  | operand hm => cases hm
  | _ => exact ⟨_, rfl, nofun⟩

theorem append_tokens_primary_ne {t : ExprTree .primary} {e : ExpressionTree} {u u' : List Token} :
    u ++ t.tokens ≠ u' ++ tokens (.paren e) := by
  intro h
  obtain ⟨x, hx, hne⟩ := t.tokens_primary
  rw [hx, append_tokens_paren] at h
  exact hne (List.singleton_inj.mp (List.append_inj' h rfl).2)

/-- Read from its end, a sequence has at most one phrase of a layer behind at most one start. -/
theorem eq_of_append_tokens {l : Layer} (t t' : ExprTree l) {u u' : List Token}
    (hu : l.EndsBelow u) (hu' : l.EndsBelow u') (h : u ++ t.tokens = u' ++ t'.tokens) :
    u = u' ∧ t = t' := by
  induction t generalizing u u' with
  | @binary l m p op hop hm lhs rhs ihl ihr =>
    rw [append_tokens_binary] at h
    cases t' with
    | @binary _ m' p' op' hop' hm' lhs' rhs' =>
      obtain rfl : m = m' := Option.some.inj (hm.symm.trans hm')
      rw [append_tokens_binary] at h
      obtain ⟨hstart, rfl⟩ := ihr rhs' (.operator hop hm) (.operator hop' hm) h
      obtain ⟨hlhs, hlast⟩ := List.append_inj' hstart rfl
      cases hlast
      cases (Layer.spec_of_mem hop).1.symm.trans (Layer.spec_of_mem hop').1
      obtain ⟨rfl, rfl⟩ := ihl lhs' hu hu' hlhs
      exact ⟨rfl, rfl⟩
    | @operand _ m' hm' e =>
      obtain rfl : m = m' := Option.some.inj (hm.symm.trans hm')
      obtain ⟨rfl, -⟩ := ihr e (.operator hop hm) (hu'.operand hm) h
      exact absurd hu' (Layer.EndsBelow.not_operator hop)
    | _ => cases hop
  | @operand l m hm e ih =>
    cases t' with
    | @binary _ m' p op hop hm' lhs rhs =>
      obtain rfl : m = m' := Option.some.inj (hm.symm.trans hm')
      rw [append_tokens_binary] at h
      obtain ⟨rfl, -⟩ := ih rhs (hu.operand hm) (.operator hop hm) h
      exact absurd hu (Layer.EndsBelow.not_operator hop)
    | @operand _ m' hm' e' =>
      obtain rfl : m = m' := Option.some.inj (hm.symm.trans hm')
      obtain ⟨rfl, rfl⟩ := ih e' (hu.operand hm) (hu'.operand hm) h
      exact ⟨rfl, rfl⟩
    | paren e' =>
      cases hm
      exact absurd h append_tokens_primary_ne
    | _ => cases hm
  | paren e ih =>
    cases t' with
    | binary _ _ hop => cases hop
    | operand hm e' =>
      cases hm
      exact absurd h.symm append_tokens_primary_ne
    | paren e' =>
      rw [append_tokens_paren, append_tokens_paren] at h
      obtain ⟨hstart, rfl⟩ := ih e' (.lparen _) (.lparen _) (List.append_inj' h rfl).1
      exact ⟨(List.append_inj' hstart rfl).1, rfl⟩
  | int n | float x | ident name =>
    cases t' with
    | binary _ _ hop => cases hop
    | operand hm => cases hm
    | _ =>
      obtain ⟨rfl, hlast⟩ := List.append_inj' h rfl
      simp_all [tokens]

theorem eq_of_tokens {t t' : ExpressionTree} (h : t.tokens = t'.tokens) : t = t' :=
  (eq_of_append_tokens t t' (.nil _) (.nil _) h).2

/-- No expression starts with another one and what may close the construct around it. -/
theorem tokens_ne_append {t t' : ExpressionTree} {p : Punct} (hp : p = .rparen ∨ p = .semicolon)
    (rest : List Token) : t'.tokens ≠ t.tokens ++ .punct p :: rest := by
  intro h
  obtain ⟨st, hread, -, hparen, hsemicolon⟩ := t.read_start
  have hfeed : expressionMachine.feed st (.punct p) = none := by
    obtain rfl | rfl := hp
    · exact hparen
    · exact hsemicolon
  obtain ⟨st', hread', -⟩ := t'.read_start
  rw [h, Machine.read_append_of_read hread, Machine.read_cons, hfeed] at hread'
  cases hread'

theorem eq_of_tokens_append {t t' : ExpressionTree} {p : Punct} (hp : p = .rparen ∨ p = .semicolon)
    {rest rest' : List Token} (h : t.tokens ++ .punct p :: rest = t'.tokens ++ .punct p :: rest') :
    t = t' ∧ rest = rest' := by
  obtain ⟨w, htokens, hrest⟩ | ⟨w, htokens, hrest⟩ := List.append_eq_append_iff.mp h
  · cases w with
    | nil =>
      rw [List.append_nil] at htokens
      exact ⟨(eq_of_tokens htokens).symm, (List.cons.inj hrest).2⟩
    | cons x w =>
      cases (List.cons.inj hrest).1
      exact absurd htokens (tokens_ne_append hp w)
  · cases w with
    | nil =>
      rw [List.append_nil] at htokens
      exact ⟨eq_of_tokens htokens, (List.cons.inj hrest).2.symm⟩
    | cons x w =>
      cases (List.cons.inj hrest).1
      exact absurd htokens (tokens_ne_append hp w)

end ExprTree

/-! ## Declarations, assignments and heads -/

section

variable {rest rest' : List Token}

@[simp] theorem typeToken_inj {ty ty' : Ty} : typeToken ty = typeToken ty' ↔ ty = ty' := by
  cases ty <;> cases ty' <;> decide

theorem typeToken_eq_iff {ty : Ty} {t : Token} :
    typeToken ty = t ↔ ty = .int ∧ t = .keyword .int ∨ ty = .float ∧ t = .keyword .float := by
  cases ty <;> simp [typeToken, eq_comm]

theorem DeclTree.eq_of_tokens_append {d d' : DeclTree} (h : d.tokens ++ rest = d'.tokens ++ rest') :
    d = d' ∧ rest = rest' := by
  obtain ⟨ty, name, initial⟩ := d
  obtain ⟨ty', name', initial'⟩ := d'
  simp only [tokens, List.cons_append, List.append_assoc, List.cons.injEq, typeToken_inj,
    Token.ident.injEq, List.nil_append] at h
  obtain ⟨rfl, rfl, h⟩ := h
  cases initial with
  | none =>
    cases initial' with
    | none => exact ⟨rfl, (List.cons.inj h).2⟩
    | some e' => cases h
  | some e =>
    cases initial' with
    | none => cases h
    | some e' =>
      obtain ⟨rfl, rfl⟩ := ExprTree.eq_of_tokens_append (.inr rfl) (List.cons.inj h).2
      exact ⟨rfl, rfl⟩

theorem AssignTree.eq_of_tokens_append {a a' : AssignTree} {p : Punct}
    (hp : p = .rparen ∨ p = .semicolon)
    (h : a.tokens ++ .punct p :: rest = a'.tokens ++ .punct p :: rest') :
    a = a' ∧ rest = rest' := by
  obtain ⟨name, e⟩ := a
  obtain ⟨name', e'⟩ := a'
  simp only [tokens, List.cons_append, List.cons.injEq, Token.ident.injEq, true_and] at h
  obtain ⟨rfl, h⟩ := h
  obtain ⟨rfl, rfl⟩ := ExprTree.eq_of_tokens_append hp h
  exact ⟨rfl, rfl⟩

theorem ForHead.eq_of_tokens_append {h h' : ForHead} (heq : h.tokens ++ rest = h'.tokens ++ rest') :
    h = h' ∧ rest = rest' := by
  obtain ⟨init, cond, step⟩ := h
  obtain ⟨init', cond', step'⟩ := h'
  simp only [tokens, List.cons_append, List.append_assoc, List.cons.injEq, true_and,
    List.nil_append] at heq
  obtain ⟨rfl, hcond⟩ := DeclTree.eq_of_tokens_append heq
  obtain ⟨rfl, hstep⟩ := ExprTree.eq_of_tokens_append (.inr rfl) hcond
  obtain ⟨rfl, rfl⟩ := AssignTree.eq_of_tokens_append (.inl rfl) hstep
  exact ⟨rfl, rfl⟩

theorem eq_of_condTokens_append {word : Keyword} {cond cond' : ExpressionTree}
    (h : condTokens word cond ++ rest = condTokens word cond' ++ rest') :
    cond = cond' ∧ rest = rest' := by
  simp only [condTokens, List.cons_append, List.append_assoc, List.cons.injEq, true_and,
    List.nil_append] at h
  exact ExprTree.eq_of_tokens_append (.inl rfl) h

end

/-! ## The plain grammar -/

/-- The derivations of statements, and of lists of them, in the plain grammar. -/
inductive PlainTree : Form → Type
  | ifThen (cond : ExpressionTree) (body : PlainTree .statement) : PlainTree .statement
  | ifElse (cond : ExpressionTree) (thenArm elseArm : PlainTree .statement) : PlainTree .statement
  | while_ (cond : ExpressionTree) (body : PlainTree .statement) : PlainTree .statement
  | for_ (head : ForHead) (body : PlainTree .statement) : PlainTree .statement
  | assign (a : AssignTree) : PlainTree .statement
  | decl (d : DeclTree) : PlainTree .statement
  | block (body : PlainTree .list) : PlainTree .statement
  | empty : PlainTree .statement
  | nil : PlainTree .list
  | cons (s : PlainTree .statement) (body : PlainTree .list) : PlainTree .list

namespace PlainTree

def tokens {k : Form} : PlainTree k → List Token
  | .ifThen cond body => condTokens .if_ cond ++ body.tokens
  | .ifElse cond thenArm elseArm =>
    condTokens .if_ cond ++ (thenArm.tokens ++ .keyword .else_ :: elseArm.tokens)
  | .while_ cond body => condTokens .while_ cond ++ body.tokens
  | .for_ head body => head.tokens ++ body.tokens
  | .assign a => a.tokens ++ [.punct .semicolon]
  | .decl d => d.tokens
  | .block body => .punct .lbrace :: (body.tokens ++ [.punct .rbrace])
  | .empty => [.punct .semicolon]
  | .nil => []
  | .cons s body => s.tokens ++ body.tokens

end PlainTree

/-! ### The same sequences -/

namespace StmtTree

/-- An open statement takes an `else`: it goes to the `if` that the statement ends in. -/
theorem exists_else : (s : StmtTree .opened) → (elseArm : StmtTree .statement) →
    ∃ s' : StmtTree .statement, s'.tokens = s.tokens ++ .keyword .else_ :: elseArm.tokens
  | .openIf cond (.ofClosed body), elseArm => ⟨.ifElse cond body elseArm, by simp [tokens]⟩
  | .openIf cond (.ofOpen body), elseArm => by
    obtain ⟨body', hbody⟩ := exists_else body elseArm
    exact ⟨.ofOpen (.openIf cond body'), by simp [hbody, tokens]⟩
  | .openIfElse cond thenArm other, elseArm => by
    obtain ⟨other', hother⟩ := exists_else other elseArm
    exact ⟨.ifElse cond thenArm other', by simp [hother, tokens]⟩
  | .openWhile cond body, elseArm => by
    obtain ⟨body', hbody⟩ := exists_else body elseArm
    exact ⟨.while_ cond body', by simp [hbody, tokens]⟩
  | .openFor head body, elseArm => by
    obtain ⟨body', hbody⟩ := exists_else body elseArm
    exact ⟨.for_ head body', by simp [hbody, tokens]⟩

end StmtTree

/-- An `else` behind an open then-arm is moved into the arm. -/
theorem PlainTree.exists_stmtTree {k : Form} (t : PlainTree k) :
    ∃ s : StmtTree k, s.tokens = t.tokens := by
  induction t with
  | ifThen cond body ih =>
    obtain ⟨s, hs⟩ := ih
    exact ⟨.ofOpen (.openIf cond s), by simp [StmtTree.tokens, tokens, hs]⟩
  | ifElse cond thenArm elseArm iht ihe =>
    obtain ⟨e, he⟩ := ihe
    obtain ⟨s, hs⟩ := iht
    cases s with
    | ofClosed s =>
      refine ⟨.ifElse cond s e, ?_⟩
      rw [StmtTree.tokens_ifElse, tokens, he, ← hs, StmtTree.tokens]
    | ofOpen s =>
      obtain ⟨s', hs'⟩ := s.exists_else e
      refine ⟨.ofOpen (.openIf cond s'), ?_⟩
      rw [StmtTree.tokens, StmtTree.tokens, hs', tokens, he, ← hs, StmtTree.tokens]
  | while_ cond body ih =>
    obtain ⟨s, hs⟩ := ih
    exact ⟨.while_ cond s, by rw [StmtTree.tokens_while, hs, tokens]⟩
  | for_ head body ih =>
    obtain ⟨s, hs⟩ := ih
    exact ⟨.for_ head s, by rw [StmtTree.tokens_for, hs, tokens]⟩
  | assign a => exact ⟨.ofClosed (.ofSimple (.assign a)), rfl⟩
  | decl d => exact ⟨.ofClosed (.ofSimple (.decl d)), rfl⟩
  | block body ih =>
    obtain ⟨s, hs⟩ := ih
    exact ⟨.ofClosed (.ofSimple (.block s)), by simp [StmtTree.tokens, tokens, hs]⟩
  | empty => exact ⟨.ofClosed (.ofSimple .empty), rfl⟩
  | nil => exact ⟨.nil, rfl⟩
  | cons s body ihs ihb =>
    obtain ⟨s', hs⟩ := ihs
    obtain ⟨body', hbody⟩ := ihb
    exact ⟨.cons s' body', by rw [StmtTree.tokens, hs, hbody, tokens]⟩

/-- The form of a derivation in the plain grammar. -/
abbrev Form.plain : Form → Form
  | .list => .list
  | .statement | .opened | .closed | .simple => .statement

/-- Forget which statements are open. -/
def StmtTree.plain : {k : Form} → StmtTree k → PlainTree k.plain
  | _, .ofOpen s => s.plain
  | _, .ofClosed s => s.plain
  | _, .ofSimple s => s.plain
  | _, .openIf cond body => .ifThen cond body.plain
  | _, .openIfElse cond thenArm elseArm => .ifElse cond thenArm.plain elseArm.plain
  | _, .closedIfElse cond thenArm elseArm => .ifElse cond thenArm.plain elseArm.plain
  | _, .openWhile cond body => .while_ cond body.plain
  | _, .closedWhile cond body => .while_ cond body.plain
  | _, .openFor head body => .for_ head body.plain
  | _, .closedFor head body => .for_ head body.plain
  | _, .assign a => .assign a
  | _, .decl d => .decl d
  | _, .block body => .block body.plain
  | _, .empty => .empty
  | _, .nil => .nil
  | _, .cons s body => .cons s.plain body.plain

theorem StmtTree.tokens_plain {k : Form} (t : StmtTree k) : t.plain.tokens = t.tokens := by
  induction t <;> simp_all [plain, tokens, PlainTree.tokens]

/-! ### One derivation -/

namespace PlainTree

/-- The statement ends in an `if` without `else`. -/
def Open {k : Form} : PlainTree k → Prop
  | .ifThen .. => True
  | .ifElse _ _ elseArm => elseArm.Open
  | .while_ _ body | .for_ _ body => body.Open
  | _ => False

/-- No then-arm before an `else` could have taken it. -/
def Nearest {k : Form} : PlainTree k → Prop
  | .ifElse _ thenArm elseArm => ¬ thenArm.Open ∧ thenArm.Nearest ∧ elseArm.Nearest
  | .ifThen _ body | .while_ _ body | .for_ _ body => body.Nearest
  | .block body => body.Nearest
  | .cons s body => s.Nearest ∧ body.Nearest
  | _ => True

/-- What stands behind a derivation does not continue it. -/
structure Stops {k : Form} (t : PlainTree k) (rest : List Token) : Prop where
  statement : t.Open → rest.head? ≠ some (.keyword .else_)
  list : k = .list → rest.head? = some (.punct .rbrace)

/-- The first token of a statement. -/
def first : PlainTree .statement → Token
  | .ifThen .. | .ifElse .. => .keyword .if_
  | .while_ .. => .keyword .while_
  | .for_ .. => .keyword .for_
  | .assign a => .ident a.name
  | .decl d => typeToken d.ty
  | .block _ => .punct .lbrace
  | .empty => .punct .semicolon

theorem head?_tokens (t : PlainTree .statement) (rest : List Token) :
    (t.tokens ++ rest).head? = some t.first := by
  cases t <;> rfl

theorem first_eq {t t' : PlainTree .statement} {rest rest' : List Token}
    (h : t.tokens ++ rest = t'.tokens ++ rest') : t.first = t'.first := by
  have hhead := congrArg List.head? h
  rw [head?_tokens, head?_tokens] at hhead
  exact Option.some.inj hhead

/-- Neither an `else` nor a brace that closes a block starts a statement. -/
theorem first_ne (t : PlainTree .statement) :
    t.first ≠ .keyword .else_ ∧ t.first ≠ .punct .rbrace := by
  cases t <;> simp [first, typeToken_eq_iff]

namespace Stops

theorem nil (t : PlainTree .statement) : t.Stops [] := ⟨fun _ => nofun, nofun⟩

theorem of_closed {t : PlainTree .statement} (h : ¬ t.Open) (rest : List Token) : t.Stops rest :=
  ⟨fun hopen => absurd hopen h, nofun⟩

theorem not_open {t : PlainTree .list} : ¬ t.Open := by
  cases t <;> exact id

theorem of_rbrace (t : PlainTree .list) (rest : List Token) : t.Stops (.punct .rbrace :: rest) :=
  ⟨fun hopen => absurd hopen not_open, fun _ => rfl⟩

/-- Behind the first statement of a list stands another one, or the end. -/
theorem first {s : PlainTree .statement} {body : PlainTree .list} {rest : List Token}
    (h : (cons s body).Stops rest) : s.Stops (body.tokens ++ rest) := by
  refine ⟨fun _ => ?_, nofun⟩
  cases body with
  | nil =>
    rw [tokens, List.nil_append, h.list rfl]
    decide
  | cons s' body' =>
    rw [tokens, List.append_assoc, head?_tokens]
    exact fun helse => s'.first_ne.1 (Option.some.inj helse)

theorem tail {s : PlainTree .statement} {body : PlainTree .list} {rest : List Token}
    (h : (cons s body).Stops rest) : body.Stops rest :=
  ⟨fun hopen => absurd hopen not_open, h.list⟩

/-- A statement stops where the one it ends stops. -/
theorem last {t s : PlainTree .statement} {rest : List Token} (h : t.Stops rest)
    (hopen : s.Open → t.Open) : s.Stops rest :=
  ⟨fun hs => h.statement (hopen hs), nofun⟩

end Stops

/-- A sequence starts with at most one derivation in which every `else` is taken as soon as it can
be. -/
theorem eq_of_tokens_append {k : Form} (t t' : PlainTree k) (hnearest : t.Nearest)
    (hnearest' : t'.Nearest) {rest rest' : List Token} (hstops : t.Stops rest)
    (hstops' : t'.Stops rest') (h : t.tokens ++ rest = t'.tokens ++ rest') :
    t = t' ∧ rest = rest' := by
  induction t generalizing rest rest' with
  | ifThen cond body ih =>
    have hbody : body.Stops rest := hstops.last fun _ => trivial
    cases t' with
    | ifThen cond' body' =>
      simp only [tokens, List.append_assoc] at h
      obtain ⟨rfl, hrest⟩ := eq_of_condTokens_append h
      have hbody' : body'.Stops rest' := hstops'.last fun _ => trivial
      obtain ⟨rfl, rfl⟩ := ih body' hnearest hnearest' hbody hbody' hrest
      exact ⟨rfl, rfl⟩
    | ifElse cond' thenArm elseArm =>
      simp only [tokens, List.append_assoc, List.cons_append] at h
      obtain ⟨rfl, hrest⟩ := eq_of_condTokens_append h
      obtain ⟨-, rfl⟩ := ih thenArm hnearest hnearest'.2.1 hbody (.of_closed hnearest'.1 _) hrest
      exact absurd rfl (hstops.statement trivial)
    | _ => exact absurd (first_eq h).symm (by simp [first, typeToken_eq_iff])
  | ifElse cond thenArm elseArm iht ihe =>
    cases t' with
    | ifThen cond' body =>
      simp only [tokens, List.append_assoc, List.cons_append] at h
      obtain ⟨rfl, hrest⟩ := eq_of_condTokens_append h
      have hbody : body.Stops rest' := hstops'.last fun _ => trivial
      obtain ⟨-, rfl⟩ := iht body hnearest.2.1 hnearest' (.of_closed hnearest.1 _) hbody hrest
      exact absurd rfl (hstops'.statement trivial)
    | ifElse cond' thenArm' elseArm' =>
      simp only [tokens, List.append_assoc, List.cons_append] at h
      obtain ⟨rfl, hthen⟩ := eq_of_condTokens_append h
      obtain ⟨rfl, helse⟩ := iht thenArm' hnearest.2.1 hnearest'.2.1 (.of_closed hnearest.1 _)
        (.of_closed hnearest'.1 _) hthen
      obtain ⟨rfl, rfl⟩ := ihe elseArm' hnearest.2.2 hnearest'.2.2 (hstops.last id)
        (hstops'.last id) (List.cons.inj helse).2
      exact ⟨rfl, rfl⟩
    | _ => exact absurd (first_eq h).symm (by simp [first, typeToken_eq_iff])
  | while_ cond body ih =>
    cases t' with
    | while_ cond' body' =>
      simp only [tokens, List.append_assoc] at h
      obtain ⟨rfl, hrest⟩ := eq_of_condTokens_append h
      obtain ⟨rfl, rfl⟩ := ih body' hnearest hnearest' (hstops.last id)
        (hstops'.last id) hrest
      exact ⟨rfl, rfl⟩
    | _ => exact absurd (first_eq h).symm (by simp [first, typeToken_eq_iff])
  | for_ head body ih =>
    cases t' with
    | for_ head' body' =>
      simp only [tokens, List.append_assoc] at h
      obtain ⟨rfl, hrest⟩ := ForHead.eq_of_tokens_append h
      obtain ⟨rfl, rfl⟩ := ih body' hnearest hnearest' (hstops.last id)
        (hstops'.last id) hrest
      exact ⟨rfl, rfl⟩
    | _ => exact absurd (first_eq h).symm (by simp [first, typeToken_eq_iff])
  | assign a =>
    cases t' with
    | assign a' =>
      simp only [tokens, List.append_assoc, List.cons_append, List.nil_append] at h
      obtain ⟨rfl, rfl⟩ := AssignTree.eq_of_tokens_append (.inr rfl) h
      exact ⟨rfl, rfl⟩
    | _ => exact absurd (first_eq h).symm (by simp [first, typeToken_eq_iff])
  | decl d =>
    cases t' with
    | decl d' =>
      obtain ⟨rfl, rfl⟩ := DeclTree.eq_of_tokens_append h
      exact ⟨rfl, rfl⟩
    | _ => exact absurd (first_eq h) (by simp [first, typeToken_eq_iff])
  | block body ih =>
    cases t' with
    | block body' =>
      simp only [tokens, List.append_assoc, List.cons_append, List.nil_append] at h
      obtain ⟨rfl, hrest⟩ := ih body' hnearest hnearest' (.of_rbrace _ _) (.of_rbrace _ _)
        (List.cons.inj h).2
      exact ⟨rfl, (List.cons.inj hrest).2⟩
    | _ => exact absurd (first_eq h).symm (by simp [first, typeToken_eq_iff])
  | empty =>
    cases t' with
    | empty => exact ⟨rfl, (List.cons.inj h).2⟩
    | _ => exact absurd (first_eq h).symm (by simp [first, typeToken_eq_iff])
  | nil =>
    cases t' with
    | nil => exact ⟨rfl, h⟩
    | cons s' body' =>
      have hhead := hstops.list rfl
      rw [← List.nil_append rest, ← tokens, h, tokens, List.append_assoc, head?_tokens] at hhead
      exact absurd (Option.some.inj hhead) s'.first_ne.2
  | cons s body ihs ihb =>
    cases t' with
    | nil =>
      have hhead := hstops'.list rfl
      rw [← List.nil_append rest', ← tokens, ← h, tokens, List.append_assoc, head?_tokens] at hhead
      exact absurd (Option.some.inj hhead) s.first_ne.2
    | cons s' body' =>
      simp only [tokens, List.append_assoc] at h
      obtain ⟨rfl, hrest⟩ := ihs s' hnearest.1 hnearest'.1 hstops.first hstops'.first h
      obtain ⟨rfl, rfl⟩ := ihb body' hnearest.2 hnearest'.2 hstops.tail hstops'.tail hrest
      exact ⟨rfl, rfl⟩

end PlainTree

namespace StmtTree

theorem open_plain {k : Form} (t : StmtTree k) (hk : k = .opened) : t.plain.Open := by
  induction t with
  | openIf => trivial
  | openIfElse _ _ _ _ ih => exact ih rfl
  | openWhile _ _ ih => exact ih rfl
  | openFor _ _ ih => exact ih rfl
  | _ => cases hk

theorem not_open_plain {k : Form} (t : StmtTree k) (hk : k.Closed) : ¬ t.plain.Open := by
  induction t with
  | ofSimple _ ih => exact ih trivial
  | closedIfElse _ _ _ _ ih => exact ih trivial
  | closedWhile _ _ ih => exact ih trivial
  | closedFor _ _ ih => exact ih trivial
  | assign | decl | block | empty => exact id
  | _ => exact hk.elim

theorem nearest_plain {k : Form} (t : StmtTree k) : t.plain.Nearest := by
  induction t with
  | ofOpen _ ih => exact ih
  | ofClosed _ ih => exact ih
  | ofSimple _ ih => exact ih
  | openIf _ _ ih => exact ih
  | openIfElse _ thenArm _ iht ihe => exact ⟨thenArm.not_open_plain trivial, iht, ihe⟩
  | closedIfElse _ thenArm _ iht ihe => exact ⟨thenArm.not_open_plain trivial, iht, ihe⟩
  | openWhile _ _ ih => exact ih
  | closedWhile _ _ ih => exact ih
  | openFor _ _ ih => exact ih
  | closedFor _ _ ih => exact ih
  | block _ ih => exact ih
  | cons _ _ ihs ihb => exact ⟨ihs, ihb⟩
  | assign | decl | empty | nil => trivial

theorem eq_of_plain {k : Form} (t t' : StmtTree k) (h : t.plain = t'.plain) : t = t' := by
  induction t with
  | ofOpen s ih =>
    cases t' with
    | ofOpen s' => rw [ih s' h]
    | ofClosed s' => exact absurd (s.open_plain rfl) (h ▸ s'.not_open_plain trivial)
  | ofClosed s ih =>
    cases t' with
    | ofClosed s' => rw [ih s' h]
    | ofOpen s' => exact absurd (s'.open_plain rfl) (h ▸ s.not_open_plain trivial)
  | openIf cond body ih =>
    cases t' with
    | openIf cond' body' =>
      obtain ⟨rfl, hbody⟩ := PlainTree.ifThen.inj h
      rw [ih body' hbody]
    | _ => cases h
  | openIfElse cond thenArm elseArm iht ihe =>
    cases t' with
    | openIfElse cond' thenArm' elseArm' =>
      obtain ⟨rfl, hthen, helse⟩ := PlainTree.ifElse.inj h
      rw [iht thenArm' hthen, ihe elseArm' helse]
    | _ => cases h
  | openWhile cond body ih =>
    cases t' with
    | openWhile cond' body' =>
      obtain ⟨rfl, hbody⟩ := PlainTree.while_.inj h
      rw [ih body' hbody]
    | _ => cases h
  | openFor head body ih =>
    cases t' with
    | openFor head' body' =>
      obtain ⟨rfl, hbody⟩ := PlainTree.for_.inj h
      rw [ih body' hbody]
    | _ => cases h
  | ofSimple s ih =>
    cases t' with
    | ofSimple s' => rw [ih s' h]
    | _ => cases s <;> cases h
  | closedIfElse cond thenArm elseArm iht ihe =>
    cases t' with
    | closedIfElse cond' thenArm' elseArm' =>
      obtain ⟨rfl, hthen, helse⟩ := PlainTree.ifElse.inj h
      rw [iht thenArm' hthen, ihe elseArm' helse]
    | ofSimple s' => cases s' <;> cases h
    | _ => cases h
  | closedWhile cond body ih =>
    cases t' with
    | closedWhile cond' body' =>
      obtain ⟨rfl, hbody⟩ := PlainTree.while_.inj h
      rw [ih body' hbody]
    | ofSimple s' => cases s' <;> cases h
    | _ => cases h
  | closedFor head body ih =>
    cases t' with
    | closedFor head' body' =>
      obtain ⟨rfl, hbody⟩ := PlainTree.for_.inj h
      rw [ih body' hbody]
    | ofSimple s' => cases s' <;> cases h
    | _ => cases h
  | assign a =>
    cases t' with
    | assign a' => rw [PlainTree.assign.inj h]
    | _ => cases h
  | decl d =>
    cases t' with
    | decl d' => rw [PlainTree.decl.inj h]
    | _ => cases h
  | block body ih =>
    cases t' with
    | block body' => rw [ih body' (PlainTree.block.inj h)]
    | _ => cases h
  | empty =>
    cases t' with
    | empty => rfl
    | _ => cases h
  | nil =>
    cases t' with
    | nil => rfl
    | cons => cases h
  | cons s body ihs ihb =>
    cases t' with
    | nil => cases h
    | cons s' body' =>
      obtain ⟨hs, hbody⟩ := PlainTree.cons.inj h
      rw [ihs s' hs, ihb body' hbody]

theorem eq_of_tokens {t t' : StmtTree .statement} (h : t.tokens = t'.tokens) : t = t' := by
  refine eq_of_plain t t' ?_
  rw [← t.tokens_plain, ← t'.tokens_plain, ← List.append_nil t.plain.tokens,
    ← List.append_nil t'.plain.tokens] at h
  exact (PlainTree.eq_of_tokens_append _ _ t.nearest_plain t'.nearest_plain (.nil _) (.nil _) h).1

/-- No statement starts with a closed one and an `else`. -/
theorem tokens_ne_append_else (t : StmtTree .statement) (s : StmtTree .closed) (rest : List Token) :
    t.tokens ≠ s.tokens ++ .keyword .else_ :: rest := by
  intro h
  rw [← t.tokens_plain, ← s.tokens_plain, ← List.append_nil t.plain.tokens] at h
  have heq := PlainTree.eq_of_tokens_append _ _ t.nearest_plain s.nearest_plain
    (.nil _) (.of_closed (s.not_open_plain trivial) _) h
  cases heq.2

end StmtTree

end TinyC.Grammar
