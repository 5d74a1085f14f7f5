import TinyC.Proofs.Grammar.Derivation
import TinyC.Proofs.Parser.Machine

/-!
# Reading expressions

The machine for expressions takes exactly the token sequences that the grammar derives, and its
result is the value of the derivation.

Its stack holds what is open around the operand being read. A stack is settled at a level if none
of the operators on its top binds that tightly. An operand of a layer is read on a stack that is
settled there, and leaves operators behind that only wait to be reduced.
-/

namespace TinyC

open Grammar

/-! ## Layers and levels -/

namespace Grammar.Layer

/-- The level of the operators of a layer, and beyond. -/
def rank : Layer → Nat
  | .expression => 0
  | .conjunction => 1
  | .equality => 2
  | .relation => 3
  | .addition => 4
  | .term => 5
  | .factor => 6
  | .primary => 7

theorem rank_operand {l m : Layer} (h : l.operand? = some m) : m.rank = l.rank + 1 := by
  cases l <;> cases h <;> rfl

theorem rank_injective : Function.Injective rank := by
  intro l m h
  cases l <;> cases m <;> first | rfl | cases h

theorem spec_of_mem {l : Layer} {p : Punct} {op : Operator} (h : (p, op) ∈ l.operators) :
    Operator.ofPunct? p = some op ∧ op.level = l.rank := by
  have hall : ∀ e ∈ l.operators, Operator.ofPunct? e.1 = some e.2 ∧ e.2.level = l.rank := by
    cases l <;> decide
  exact hall (p, op) h

theorem rank_lt_of_mem {l : Layer} {p : Punct} {op : Operator} (h : (p, op) ∈ l.operators) :
    l.rank < factor.rank := by
  cases l with
  | factor => cases h
  | primary => cases h
  | _ => decide

theorem exists_operand {l : Layer} {p : Punct} {op : Operator} (h : (p, op) ∈ l.operators) :
    ∃ m, l.operand? = some m := by
  cases l with
  | primary => cases h
  | _ => exact ⟨_, rfl⟩

/-- Every operator belongs to a layer. -/
theorem exists_mem {p : Punct} {op : Operator} (h : Operator.ofPunct? p = some op) :
    ∃ l : Layer, (p, op) ∈ l.operators := by
  have hlayer : ∃ l ∈ [expression, conjunction, equality, relation, addition, term],
      (p, op) ∈ l.operators := by
    revert h
    cases p <;> rintro ⟨⟩ <;> decide
  obtain ⟨l, -, hmem⟩ := hlayer
  exact ⟨l, hmem⟩

end Grammar.Layer

/-! ## Settled stacks -/

/-- Nothing on the stack binds as tightly as `level`. -/
def Settled (level : Nat) (pending : List Pending) : Prop :=
  ∀ e, reduce level pending e = (pending, e)

namespace Settled

theorem nil (level : Nat) : Settled level [] := fun _ => rfl

theorem paren (level : Nat) (pending : List Pending) : Settled level (.paren :: pending) :=
  fun _ => rfl

theorem left {level : Nat} {lhs : Expr} {op : Operator} {pending : List Pending}
    (h : op.level < level) : Settled level (.left lhs op :: pending) := by
  intro e
  rw [reduce, if_neg (Nat.not_le.mpr h)]

/-- The stack of a reduction has the operators of the result on it. -/
theorem lt_of_left {level : Nat} {lhs : Expr} {op : Operator} {pending : List Pending}
    (h : Settled level (.left lhs op :: pending)) : op.level < level := by
  by_contra hle
  have hlen : ∀ (ps : List Pending) (e : Expr), (reduce level ps e).1.length ≤ ps.length := by
    intro ps e
    fun_induction reduce level ps e with
    | case1 _ _ _ _ _ ih => exact Nat.le_succ_of_le ih
    | case2 => exact Nat.le_refl _
    | case3 => exact Nat.le_refl _
  have hreduce := h lhs
  rw [reduce, if_pos (Nat.not_lt.mp hle)] at hreduce
  have hle' := hlen pending (.binary op lhs lhs)
  rw [hreduce] at hle'
  exact absurd hle' (Nat.not_succ_le_self _)

theorem mono {level level' : Nat} {pending : List Pending} (h : Settled level pending)
    (hle : level ≤ level') : Settled level' pending := by
  cases pending with
  | nil => exact .nil _
  | cons top pending =>
    cases top with
    | paren => exact .paren _ _
    | left lhs op => exact .left (Nat.lt_of_lt_of_le h.lt_of_left hle)

end Settled

/-- A reduction may stop at a higher level first. -/
theorem reduce_of_reduce {level level' : Nat} (hle : level ≤ level')
    {pending pending' : List Pending} {e e' : Expr} (h : reduce level' pending e = (pending', e')) :
    reduce level pending e = reduce level pending' e' := by
  fun_induction reduce level' pending e with
  | case1 lhs op pending e hop ih =>
    rw [reduce, if_pos (Nat.le_trans hle hop)]
    exact ih h
  | case2 => cases h; rfl
  | case3 => cases h; rfl

/-! ## Steps -/

namespace ExprState

variable {pending pending' : List Pending} {e e' : Expr}

theorem feed_punct {p : Punct} (hp : p ≠ .rparen) :
    (operator pending e).feed (.punct p) = (Operator.ofPunct? p).map fun op =>
      .operand (.left (reduce op.level pending e).2 op :: (reduce op.level pending e).1) := by
  cases p with
  | rparen => exact absurd rfl hp
  | _ => rfl

theorem feed_operator {p : Punct} {op : Operator} (h : Operator.ofPunct? p = some op)
    (hreduce : reduce op.level pending e = (pending', e')) :
    (operator pending e).feed (.punct p) = some (.operand (.left e' op :: pending')) := by
  have hp : p ≠ .rparen := by
    rintro rfl
    cases h
  rw [feed_punct hp, h, Option.map_some, hreduce]

theorem feed_rparen (hreduce : reduce 0 pending e = (.paren :: pending', e')) :
    (operator pending e).feed (.punct .rparen) = some (.operator pending' e') := by
  delta feed
  dsimp only
  rw [hreduce]

/-- Nothing is open, so there is nothing to close. -/
theorem feed_rparen_nil (hreduce : reduce 0 pending e = ([], e')) :
    (operator pending e).feed (.punct .rparen) = none := by
  delta feed
  dsimp only
  rw [hreduce]

theorem result?_of_reduce (hreduce : reduce 0 pending e = ([], e')) :
    (operator pending e).result? = some e' := by
  rw [result?, hreduce]

theorem result?_paren (hreduce : reduce 0 pending e = (.paren :: pending', e')) :
    (operator pending e).result? = none := by
  rw [result?, hreduce]

end ExprState

/-! ## Derivations are read -/

namespace Grammar.ExprTree

variable {l : Layer}

theorem read_tokens (t : ExprTree l) {pending : List Pending} (h : Settled l.rank pending) :
    ∃ p e, expressionMachine.read (.operand pending) t.tokens = some (.operator p e) ∧
      reduce l.rank p e = (pending, t.value) := by
  induction t generalizing pending with
  | @binary l m p op hop hm lhs rhs ihl ihr =>
    obtain ⟨ps, e, hread, hreduce⟩ := ihl h
    obtain ⟨hpunct, hlevel⟩ := Layer.spec_of_mem hop
    have hrank := Layer.rank_operand hm
    -- The operator reduces the left operand to its value and waits for the right one.
    have hfeed : expressionMachine.feed (.operator ps e) (.punct p) =
        some (.operand (.left lhs.value op :: pending)) := by
      rw [← hlevel] at hreduce
      exact ExprState.feed_operator hpunct hreduce
    have hsettled : Settled m.rank (.left lhs.value op :: pending) := .left (by omega)
    obtain ⟨ps', e', hread', hreduce'⟩ := ihr hsettled
    refine ⟨ps', e', ?_, ?_⟩
    · calc expressionMachine.read (.operand pending) (lhs.tokens ++ .punct p :: rhs.tokens)
          = expressionMachine.read (.operator ps e) (.punct p :: rhs.tokens) :=
            Machine.read_append_of_read hread _
        _ = expressionMachine.read (.operand (.left lhs.value op :: pending)) rhs.tokens :=
            Machine.read_cons_of_feed hfeed _
        _ = some (.operator ps' e') := hread'
    · rw [reduce_of_reduce (by omega) hreduce', reduce, if_pos hlevel.ge]
      exact h _
  | @operand l m hm t ih =>
    have hrank := Layer.rank_operand hm
    obtain ⟨ps, e, hread, hreduce⟩ := ih (h.mono (by omega))
    refine ⟨ps, e, hread, ?_⟩
    rw [reduce_of_reduce (by omega) hreduce]
    exact h _
  | paren t ih =>
    obtain ⟨ps, e, hread, hreduce⟩ := ih (.paren _ pending)
    have hfeed : expressionMachine.feed (.operator ps e) (.punct .rparen) =
        some (.operator pending t.value) := ExprState.feed_rparen hreduce
    refine ⟨pending, t.value, ?_, h _⟩
    exact (Machine.read_append_of_read hread _).trans (Machine.read_cons_of_feed hfeed _)
  | int n => exact ⟨pending, _, rfl, h _⟩
  | float x => exact ⟨pending, _, rfl, h _⟩
  | ident name => exact ⟨pending, _, rfl, h _⟩

end Grammar.ExprTree

/-! ## What is read is derived -/

namespace Grammar.ExprTree

/-- A phrase of a layer is one of every looser layer. -/
theorem exists_looser {l : Layer} (t : ExprTree l) {m : Layer} (h : m.rank ≤ l.rank) :
    ∃ t' : ExprTree m, t'.tokens = t.tokens ∧ t'.value = t.value := by
  obtain heq | hlt := Nat.eq_or_lt_of_le h
  · obtain rfl := Layer.rank_injective heq
    exact ⟨t, rfl, rfl⟩
  · have hoperand : ∃ n, m.operand? = some n := by
      cases m with
      | primary => cases l <;> simp [Layer.rank] at hlt
      | _ => exact ⟨_, rfl⟩
    obtain ⟨n, hn⟩ := hoperand
    have hrank := Layer.rank_operand hn
    obtain ⟨t', htokens, hvalue⟩ := t.exists_looser (m := n) (by omega)
    exact ⟨.operand hn t', htokens, hvalue⟩
termination_by l.rank - m.rank

end Grammar.ExprTree

/-- The tokens read so far leave the stack as it is: every operator on it has a left operand of its
own layer, and binds tighter than what is below it. -/
inductive Stacked : List Pending → List Token → Prop
  | nil : Stacked [] []
  | paren {pending tokens} : Stacked pending tokens →
    Stacked (.paren :: pending) (tokens ++ [.punct .lparen])
  | left {pending tokens l p op} (t : ExprTree l) : (p, op) ∈ l.operators →
    Settled l.rank pending → Stacked pending tokens →
    Stacked (.left t.value op :: pending) (tokens ++ (t.tokens ++ [.punct p]))

/-- The tokens that a state has read. -/
def ExprState.Reads : ExprState → List Token → Prop
  | .operand pending, tokens => Stacked pending tokens
  | .operator pending e, tokens =>
    ∃ before, ∃ t : ExprTree .factor, Stacked pending before ∧ t.value = e ∧
      tokens = before ++ t.tokens

/-- A reduction turns the operators it takes from the stack into derivations. -/
theorem Stacked.reduce {pending : List Pending} {before : List Token}
    (h : Stacked pending before) {l : Layer} (t : ExprTree l) (hl : Settled l.rank pending)
    {m : Layer} (hm : m.rank ≤ l.rank) :
    ∃ pending' before', ∃ t' : ExprTree m,
      TinyC.reduce m.rank pending t.value = (pending', t'.value) ∧ Stacked pending' before' ∧
      Settled m.rank pending' ∧ before' ++ t'.tokens = before ++ t.tokens := by
  induction h generalizing l with
  | nil =>
    obtain ⟨t', htokens, hvalue⟩ := t.exists_looser hm
    exact ⟨[], [], t', by rw [hvalue]; rfl, .nil, .nil _, by rw [htokens]⟩
  | @paren pending before h =>
    obtain ⟨t', htokens, hvalue⟩ := t.exists_looser hm
    exact ⟨_, _, t', by rw [hvalue]; rfl, .paren h, .paren _ _, by rw [htokens]⟩
  | @left pending before n p op lhs hop hsettled h ih =>
    obtain ⟨-, hlevel⟩ := Layer.spec_of_mem hop
    by_cases hle : m.rank ≤ op.level
    · -- The operator takes what has been read as its right operand.
      obtain ⟨r, hr⟩ := Layer.exists_operand hop
      have hrank := Layer.rank_operand hr
      have hlt := hl.lt_of_left
      obtain ⟨rhs, htokens, hvalue⟩ := t.exists_looser (m := r) (by omega)
      obtain ⟨pending', before', t', hreduce, hstacked, hsettled', heq⟩ :=
        ih (.binary p op hop hr lhs rhs) hsettled (by omega)
      refine ⟨pending', before', t', ?_, hstacked, hsettled', ?_⟩
      · rw [TinyC.reduce, if_pos hle, ← hvalue]
        exact hreduce
      · rw [heq, ExprTree.tokens, htokens]
        simp
    · obtain ⟨t', htokens, hvalue⟩ := t.exists_looser hm
      refine ⟨_, _, t', ?_, .left lhs hop hsettled h, .left (by omega), by rw [htokens]⟩
      rw [TinyC.reduce, if_neg hle, hvalue]

theorem Stacked.settled {pending : List Pending} {before : List Token}
    (h : Stacked pending before) : Settled Layer.factor.rank pending := by
  cases h with
  | nil => exact .nil _
  | paren => exact .paren _ _
  | left t hop =>
    have hlevel := (Layer.spec_of_mem hop).2
    exact .left (hlevel ▸ Layer.rank_lt_of_mem hop)

/-- What is left when everything on the stack has been reduced, down to the last parenthesis. -/
theorem Stacked.reduce_all {pending : List Pending} {before : List Token}
    (h : Stacked pending before) (t : ExprTree .factor) :
    ∃ t' : ExpressionTree,
      (TinyC.reduce 0 pending t.value = ([], t'.value) ∧ t'.tokens = before ++ t.tokens) ∨
      ∃ pending' before', TinyC.reduce 0 pending t.value = (.paren :: pending', t'.value) ∧
        Stacked pending' before' ∧ before' ++ .punct .lparen :: t'.tokens = before ++ t.tokens := by
  obtain ⟨pending', before', t', hreduce, hstacked, hsettled, heq⟩ :=
    h.reduce t h.settled (m := .expression) (by decide)
  refine ⟨t', ?_⟩
  cases hstacked with
  | nil => exact .inl ⟨hreduce, heq⟩
  | paren h => exact .inr ⟨_, _, hreduce, h, by simpa using heq⟩
  | left => exact absurd hsettled.lt_of_left (Nat.not_lt_zero _)

namespace ExprState

theorem Reads.feed {st st' : ExprState} {tokens : List Token} {t : Token} (h : st.Reads tokens)
    (hfeed : st.feed t = some st') : st'.Reads (tokens ++ [t]) := by
  cases st with
  | operand pending =>
    have hprimary : ∀ t' : ExprTree .primary,
        (operator pending t'.value).Reads (tokens ++ t'.tokens) := fun t' =>
      ⟨tokens, .operand rfl t', h, rfl, rfl⟩
    cases t with
    | int n => cases hfeed; exact hprimary (.int n)
    | float x => cases hfeed; exact hprimary (.float x)
    | ident name => cases hfeed; exact hprimary (.ident name)
    | punct p =>
      cases p with
      | lparen => cases hfeed; exact .paren h
      | _ => cases hfeed
    | str s => cases hfeed
    | keyword k => cases hfeed
  | operator pending e =>
    obtain ⟨before, u, hstacked, rfl, rfl⟩ := h
    cases t with
    | punct p =>
      by_cases hp : p = .rparen
      · subst hp
        obtain ⟨u', ⟨hreduce, -⟩ | ⟨pending', before', hreduce, hstacked', heq⟩⟩ :=
          hstacked.reduce_all u
        · rw [feed_rparen_nil hreduce] at hfeed
          cases hfeed
        · rw [feed_rparen hreduce] at hfeed
          cases hfeed
          refine ⟨before', .paren u', hstacked', rfl, ?_⟩
          rw [← heq]
          simp [ExprTree.tokens]
      · rw [feed_punct hp] at hfeed
        obtain ⟨op, hop, rfl⟩ := Option.map_eq_some_iff.mp hfeed
        obtain ⟨l, hmem⟩ := Layer.exists_mem hop
        have hlevel := (Layer.spec_of_mem hmem).2
        obtain ⟨pending', before', u', hreduce, hstacked', hsettled, heq⟩ :=
          hstacked.reduce u hstacked.settled (Layer.rank_lt_of_mem hmem).le
        rw [hlevel, hreduce, ← heq, List.append_assoc]
        exact .left u' hmem hsettled hstacked'
    | _ => cases hfeed

end ExprState

/-- A complete expression refuses what may close the construct around it. -/
theorem Grammar.ExprTree.read_start (t : ExpressionTree) :
    ∃ st, expressionMachine.read .start t.tokens = some st ∧ st.result? = some t.value ∧
      st.feed (.punct .rparen) = none ∧ st.feed (.punct .semicolon) = none := by
  obtain ⟨p, e, hread, hreduce⟩ := t.read_tokens (.nil _)
  exact ⟨_, hread, ExprState.result?_of_reduce hreduce, ExprState.feed_rparen_nil hreduce,
    ExprState.feed_punct (by decide)⟩

theorem ExprState.Reads.result {st : ExprState} {tokens : List Token} {e : Expr}
    (h : st.Reads tokens) (hresult : st.result? = some e) :
    ∃ t : ExpressionTree, t.tokens = tokens ∧ t.value = e := by
  cases st with
  | operand pending => cases hresult
  | operator pending e' =>
    obtain ⟨before, u, hstacked, rfl, rfl⟩ := h
    obtain ⟨u', ⟨hreduce, htokens⟩ | ⟨_, _, hreduce, -, -⟩⟩ := hstacked.reduce_all u
    · cases hresult.symm.trans (ExprState.result?_of_reduce hreduce)
      exact ⟨u', htokens, rfl⟩
    · cases hresult.symm.trans (ExprState.result?_paren hreduce)

/-- The machine reads exactly the expressions that the grammar derives. -/
theorem expressionMachine_accepts_iff {tokens : List Token} {e : Expr} :
    expressionMachine.Accepts .start tokens e ↔
      ∃ t : ExpressionTree, t.tokens = tokens ∧ t.value = e := by
  constructor
  · intro ⟨st, hread, hresult⟩
    have hstart : ExprState.start.Reads [] := Stacked.nil
    exact (Machine.read_induct (I := ExprState.Reads) ExprState.Reads.feed hstart hread).result
      hresult
  · rintro ⟨t, rfl, rfl⟩
    obtain ⟨st, hread, hresult, -, -⟩ := t.read_start
    exact ⟨st, hread, hresult⟩

end TinyC
