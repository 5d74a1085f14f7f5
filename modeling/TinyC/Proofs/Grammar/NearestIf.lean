import TinyC.Proofs.Grammar.Ambiguity

/-!
# The `if` of an `else`

A derivation gives every `else` an `if`. A scan of the tokens alone finds the same one: of the
`if`s before the `else` on its brace level, the latest that has none yet.
-/

namespace TinyC.Grammar

/-! ## By derivation -/

/-- The positions of the `if`s that have an `else`, each with the position of its `else`. The first
token of the derivation is at position `n`. -/
def StmtTree.pairs {k : Form} : StmtTree k → Nat → List (Nat × Nat)
  | .ofOpen s, n | .ofClosed s, n | .ofSimple s, n => s.pairs n
  | .openIf cond body, n => body.pairs (n + (condTokens .if_ cond).length)
  | .openIfElse cond thenArm elseArm, n | .closedIfElse cond thenArm elseArm, n =>
    let thenAt := n + (condTokens .if_ cond).length
    let elseAt := thenAt + thenArm.tokens.length
    thenArm.pairs thenAt ++ (n, elseAt) :: elseArm.pairs (elseAt + 1)
  | .openWhile cond body, n | .closedWhile cond body, n =>
    body.pairs (n + (condTokens .while_ cond).length)
  | .openFor head body, n | .closedFor head body, n => body.pairs (n + head.tokens.length)
  | .block body, n => body.pairs (n + 1)
  | .cons s body, n => s.pairs n ++ body.pairs (n + s.tokens.length)
  | .assign _, _ | .decl _, _ | .empty, _ | .nil, _ => []

/-! ## By a scan -/

/-- Give every `else` the latest `if` on its brace level that has none yet. The `if`s without `else`
are kept for each level, latest first: `inner` on the current one, `outer` on those around it. -/
def pairElses (inner : List Nat) (outer : List (List Nat)) (n : Nat) :
    List Token → List (Nat × Nat)
  | [] => []
  | t :: tokens =>
    if t = .keyword .if_ then pairElses (n :: inner) outer (n + 1) tokens
    else if t = .keyword .else_ then
      (inner.head?.map (·, n)).toList ++ pairElses inner.tail outer (n + 1) tokens
    else if t = .punct .lbrace then pairElses [] (inner :: outer) (n + 1) tokens
    else if t = .punct .rbrace then pairElses (outer.headD []) outer.tail (n + 1) tokens
    else pairElses inner outer (n + 1) tokens

section

variable (inner : List Nat) (outer : List (List Nat)) (n : Nat) (tokens : List Token)

theorem pairElses_if : pairElses inner outer n (.keyword .if_ :: tokens) =
    pairElses (n :: inner) outer (n + 1) tokens :=
  if_pos rfl

theorem pairElses_else (i : Nat) : pairElses (i :: inner) outer n (.keyword .else_ :: tokens) =
    (i, n) :: pairElses inner outer (n + 1) tokens :=
  rfl

theorem pairElses_lbrace : pairElses inner outer n (.punct .lbrace :: tokens) =
    pairElses [] (inner :: outer) (n + 1) tokens :=
  rfl

theorem pairElses_rbrace (level : List Nat) :
    pairElses inner (level :: outer) n (.punct .rbrace :: tokens) =
      pairElses level outer (n + 1) tokens :=
  rfl

end

/-- The scan passes over the token. -/
def Neutral (t : Token) : Prop :=
  t ≠ .keyword .if_ ∧ t ≠ .keyword .else_ ∧ t ≠ .punct .lbrace ∧ t ≠ .punct .rbrace

theorem pairElses_neutral {tokens : List Token} (h : ∀ t ∈ tokens, Neutral t) (inner : List Nat)
    (outer : List (List Nat)) (n : Nat) (rest : List Token) :
    pairElses inner outer n (tokens ++ rest) = pairElses inner outer (n + tokens.length) rest := by
  induction tokens generalizing n with
  | nil => rfl
  | cons t tokens ih =>
    obtain ⟨hif, helse, hlbrace, hrbrace⟩ := h t List.mem_cons_self
    rw [List.cons_append, pairElses, if_neg hif, if_neg helse, if_neg hlbrace, if_neg hrbrace,
      ih fun t ht => h t (List.mem_cons_of_mem _ ht), List.length_cons, Nat.add_assoc,
      Nat.add_comm 1]

/-! ### Neutral phrases -/

instance (t : Token) : Decidable (Neutral t) := inferInstanceAs (Decidable (_ ∧ _))

theorem ExprTree.neutral {l : Layer} (e : ExprTree l) : ∀ t ∈ e.tokens, Neutral t := by
  induction e with
  | @binary l m p op hop hm lhs rhs ihl ihr =>
    have hoperators : ∀ e ∈ l.operators, Neutral (.punct e.1) := by
      cases l <;> decide
    simp only [tokens, List.forall_mem_append, List.forall_mem_cons]
    exact ⟨ihl, hoperators (p, op) hop, ihr⟩
  | operand hm e ih => exact ih
  | paren e ih =>
    simp only [tokens, List.forall_mem_append, List.forall_mem_cons]
    exact ⟨by decide, ih, by decide⟩
  | _ => simp [tokens, Neutral]

theorem DeclTree.neutral (d : DeclTree) : ∀ t ∈ d.tokens, Neutral t := by
  obtain ⟨ty, name, initial⟩ := d
  have hty : Neutral (typeToken ty) := by
    cases ty <;> decide
  have hname : Neutral (.ident name) := ⟨nofun, nofun, nofun, nofun⟩
  simp only [tokens, List.forall_mem_append, List.forall_mem_cons]
  refine ⟨hty, hname, ?_, by decide⟩
  cases initial with
  | none => exact List.forall_mem_nil _
  | some e => exact List.forall_mem_cons.mpr ⟨by decide, e.neutral⟩

theorem AssignTree.neutral (a : AssignTree) : ∀ t ∈ a.tokens, Neutral t := by
  have hname : Neutral (.ident a.name) := ⟨nofun, nofun, nofun, nofun⟩
  simp only [tokens, List.forall_mem_cons]
  exact ⟨hname, by decide, a.expr.neutral⟩

theorem AssignTree.neutral_semicolon (a : AssignTree) :
    ∀ t ∈ a.tokens ++ [.punct .semicolon], Neutral t :=
  List.forall_mem_append.mpr ⟨a.neutral, List.forall_mem_singleton.mpr (by decide)⟩

theorem ForHead.neutral (h : ForHead) : ∀ t ∈ h.tokens, Neutral t := by
  simp only [tokens, List.forall_mem_append, List.forall_mem_cons]
  exact ⟨by decide, by decide, h.init.neutral, h.cond.neutral, by decide, h.step.neutral, by decide⟩

theorem neutral_cond (cond : ExpressionTree) :
    ∀ t ∈ .punct .lparen :: (cond.tokens ++ [.punct .rparen]), Neutral t := by
  simp only [List.forall_mem_append, List.forall_mem_cons]
  exact ⟨by decide, cond.neutral, by decide⟩

theorem neutral_condTokens_while (cond : ExpressionTree) :
    ∀ t ∈ condTokens .while_ cond, Neutral t :=
  List.forall_mem_cons.mpr ⟨by decide, neutral_cond cond⟩

theorem pairElses_condTokens_if (cond : ExpressionTree) (inner : List Nat)
    (outer : List (List Nat)) (n : Nat) (rest : List Token) :
    pairElses inner outer n (condTokens .if_ cond ++ rest) =
      pairElses (n :: inner) outer (n + (condTokens .if_ cond).length) rest := by
  rw [condTokens, List.cons_append, pairElses_if, pairElses_neutral (neutral_cond cond)]
  simp [Nat.add_assoc, Nat.add_comm 1]

/-! ### Statements -/

/-- The scan finds the pairs and leaves some `if`s without `else`, none of them behind a closed
statement. -/
def Scans (k : Form) (tokens : List Token) (pairs : Nat → List (Nat × Nat)) : Prop :=
  ∀ inner outer n, ∃ left : List Nat, (k.Closed → left = []) ∧ ∀ rest,
    pairElses inner outer n (tokens ++ rest) =
      pairs n ++ pairElses (left ++ inner) outer (n + tokens.length) rest

namespace Scans

variable {k : Form} {tokens tokens' : List Token} {pairs pairs' : Nat → List (Nat × Nat)}

theorem mono {k' : Form} (h : Scans k tokens pairs) (hk : k'.Closed → k.Closed) :
    Scans k' tokens pairs := by
  intro inner outer n
  obtain ⟨left, hleft, hscan⟩ := h inner outer n
  exact ⟨left, fun hclosed => hleft (hk hclosed), hscan⟩

theorem of_neutral (h : ∀ t ∈ tokens, Neutral t) : Scans k tokens fun _ => [] :=
  fun inner outer n => ⟨[], fun _ => rfl, pairElses_neutral h inner outer n⟩

/-- What is passed over in front of a statement. -/
theorem head {head : List Token} (hhead : ∀ t ∈ head, Neutral t) (h : Scans k tokens pairs) :
    Scans k (head ++ tokens) fun n => pairs (n + head.length) := by
  intro inner outer n
  obtain ⟨left, hleft, hscan⟩ := h inner outer (n + head.length)
  refine ⟨left, hleft, fun rest => ?_⟩
  rw [List.append_assoc, pairElses_neutral hhead, hscan, List.length_append, Nat.add_assoc]

theorem ifThen (cond : ExpressionTree) (h : Scans k tokens pairs) :
    Scans .opened (condTokens .if_ cond ++ tokens) fun n =>
      pairs (n + (condTokens .if_ cond).length) := by
  intro inner outer n
  obtain ⟨left, -, hscan⟩ := h (n :: inner) outer (n + (condTokens .if_ cond).length)
  refine ⟨left ++ [n], False.elim, fun rest => ?_⟩
  rw [List.append_assoc, pairElses_condTokens_if, hscan, List.length_append, Nat.add_assoc,
    List.append_assoc, List.singleton_append]

/-- Behind a closed then-arm the `if` in front of it is the latest. -/
theorem ifElse (cond : ExpressionTree) (hthen : Scans .closed tokens pairs)
    (helse : Scans k tokens' pairs') :
    Scans k (condTokens .if_ cond ++ (tokens ++ .keyword .else_ :: tokens')) fun n =>
      pairs (n + (condTokens .if_ cond).length) ++
        (n, n + (condTokens .if_ cond).length + tokens.length) ::
          pairs' (n + (condTokens .if_ cond).length + tokens.length + 1) := by
  intro inner outer n
  obtain ⟨left, hleft, hscan⟩ := hthen (n :: inner) outer (n + (condTokens .if_ cond).length)
  obtain ⟨left', hleft', hscan'⟩ :=
    helse inner outer (n + (condTokens .if_ cond).length + tokens.length + 1)
  refine ⟨left', hleft', fun rest => ?_⟩
  rw [List.append_assoc, pairElses_condTokens_if, List.append_assoc, hscan, hleft trivial,
    List.nil_append, List.cons_append, pairElses_else, hscan']
  simp [Nat.add_assoc, Nat.add_comm 1]

theorem block (h : Scans .list tokens pairs) :
    Scans k (.punct .lbrace :: (tokens ++ [.punct .rbrace])) fun n => pairs (n + 1) := by
  intro inner outer n
  obtain ⟨left, -, hscan⟩ := h [] (inner :: outer) (n + 1)
  refine ⟨[], fun _ => rfl, fun rest => ?_⟩
  rw [List.cons_append, pairElses_lbrace, List.append_assoc, hscan, List.singleton_append,
    pairElses_rbrace]
  simp [Nat.add_assoc, Nat.add_comm 1]

theorem cons (hs : Scans .statement tokens pairs) (hss : Scans .list tokens' pairs') :
    Scans .list (tokens ++ tokens') fun n => pairs n ++ pairs' (n + tokens.length) := by
  intro inner outer n
  obtain ⟨left, -, hscan⟩ := hs inner outer n
  obtain ⟨left', -, hscan'⟩ := hss (left ++ inner) outer (n + tokens.length)
  refine ⟨left' ++ left, False.elim, fun rest => ?_⟩
  rw [List.append_assoc, hscan, hscan']
  simp [Nat.add_assoc]

end Scans

theorem StmtTree.scans {k : Form} (t : StmtTree k) : Scans k t.tokens t.pairs := by
  induction t with
  | ofOpen s ih => exact ih
  | ofClosed s ih => exact ih.mono False.elim
  | ofSimple s ih => exact ih
  | openIf cond body ih => exact ih.ifThen cond
  | openIfElse cond thenArm elseArm iht ihe => exact iht.ifElse cond ihe
  | closedIfElse cond thenArm elseArm iht ihe => exact iht.ifElse cond ihe
  | openWhile cond body ih => exact ih.head (neutral_condTokens_while cond)
  | closedWhile cond body ih => exact ih.head (neutral_condTokens_while cond)
  | openFor head body ih => exact ih.head head.neutral
  | closedFor head body ih => exact ih.head head.neutral
  | assign a => exact .of_neutral a.neutral_semicolon
  | decl d => exact .of_neutral d.neutral
  | block body ih => exact ih.block
  | empty => exact .of_neutral (List.forall_mem_singleton.mpr (by decide))
  | nil => exact .of_neutral (List.forall_mem_nil _)
  | cons s body ihs ihb => exact ihs.cons ihb

theorem StmtTree.pairs_eq_pairElses {k : Form} (t : StmtTree k) :
    t.pairs 0 = pairElses [] [] 0 t.tokens := by
  obtain ⟨left, -, hscan⟩ := t.scans [] [] 0
  have hall := hscan []
  rw [List.append_nil, pairElses, List.append_nil] at hall
  exact hall.symm

/-- In `if (0) if (0) ; else ;` the `else` belongs to the inner `if`. -/
example : pairElses [] [] 0
    [.keyword .if_, .punct .lparen, .int 0, .punct .rparen,
      .keyword .if_, .punct .lparen, .int 0, .punct .rparen,
      .punct .semicolon, .keyword .else_, .punct .semicolon] = [(4, 9)] := by
  decide

/-! ### All of them -/

theorem idxsOf_neutral {tokens : List Token} (h : ∀ t ∈ tokens, Neutral t) (n : Nat) :
    tokens.idxsOf (.keyword .else_) n = [] := by
  induction tokens generalizing n with
  | nil => rfl
  | cons t tokens ih =>
    obtain ⟨ht, htokens⟩ := List.forall_mem_cons.mp h
    rw [List.idxsOf_cons, if_neg (by simpa using ht.2.1), ih htokens]

theorem idxsOf_condTokens {word : Keyword} (hword : word ≠ .else_) (cond : ExpressionTree)
    (n : Nat) : (condTokens word cond).idxsOf (.keyword .else_) n = [] := by
  rw [condTokens, List.idxsOf_cons, if_neg (by simpa using hword),
    idxsOf_neutral (neutral_cond cond)]

theorem StmtTree.map_snd_pairs {k : Form} (t : StmtTree k) (n : Nat) :
    (t.pairs n).map Prod.snd = t.tokens.idxsOf (.keyword .else_) n := by
  induction t generalizing n with
  | ofOpen s ih => exact ih n
  | ofClosed s ih => exact ih n
  | ofSimple s ih => exact ih n
  | openIf cond body ih =>
    rw [tokens, List.idxsOf_append, idxsOf_condTokens (by decide)]
    exact ih _
  | openIfElse cond thenArm elseArm iht ihe | closedIfElse cond thenArm elseArm iht ihe =>
    rw [tokens, List.idxsOf_append, idxsOf_condTokens (by decide), List.idxsOf_append,
      List.idxsOf_cons, if_pos (by decide), ← iht, ← ihe]
    simp [pairs]
  | openWhile cond body ih | closedWhile cond body ih =>
    rw [tokens, List.idxsOf_append, idxsOf_condTokens (by decide)]
    exact ih _
  | openFor head body ih | closedFor head body ih =>
    rw [tokens, List.idxsOf_append, idxsOf_neutral head.neutral]
    exact ih _
  | assign a => exact (idxsOf_neutral a.neutral_semicolon n).symm
  | decl d => exact (idxsOf_neutral d.neutral n).symm
  | block body ih =>
    rw [tokens, List.idxsOf_cons, if_neg (by decide), List.idxsOf_append, ← ih]
    simp [pairs]
  | empty => rfl
  | nil => rfl
  | cons s body ihs ihb =>
    rw [tokens, List.idxsOf_append, ← ihs, ← ihb]
    simp [pairs]

/-! ## Disambiguation -/

/-- The grammar with open and closed statements derives what the plain grammar derives, in one way
only. In its derivations every `else` belongs to the nearest `if`, and a closed statement, which is
what stands before an `else`, could not have taken that `else` itself. -/
theorem StmtTree.disambiguates (tokens : List Token) :
    ((∃ t : StmtTree .statement, t.tokens = tokens) ↔
      ∃ t : PlainTree .statement, t.tokens = tokens) ∧
    {t : StmtTree .statement | t.tokens = tokens}.Subsingleton ∧
    (∀ t : StmtTree .statement, (t.pairs 0).map Prod.snd = t.tokens.idxsOf (.keyword .else_) ∧
      t.pairs 0 = pairElses [] [] 0 t.tokens) ∧
    ∀ (thenArm : StmtTree .closed) (elseArm t : StmtTree .statement),
      t.tokens ≠ thenArm.tokens ++ .keyword .else_ :: elseArm.tokens := by
  refine ⟨⟨?_, ?_⟩, ?_, fun t => ⟨t.map_snd_pairs 0, t.pairs_eq_pairElses⟩, ?_⟩
  · intro ⟨t, ht⟩
    exact ⟨t.plain, t.tokens_plain.trans ht⟩
  · intro ⟨t, ht⟩
    obtain ⟨s, hs⟩ := t.exists_stmtTree
    exact ⟨s, hs.trans ht⟩
  · intro t ht t' ht'
    exact eq_of_tokens (ht.trans ht'.symm)
  · exact fun thenArm elseArm t => t.tokens_ne_append_else thenArm _

end TinyC.Grammar
