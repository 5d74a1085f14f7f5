import Mathlib
import TinyC.Parser

/-!
# Machines as readers of token sequences

A machine that is fed a sequence of tokens ends in a state, unless it refuses one of them. A run on
the items of a source asks for one item after the other, and what it ends in depends on the items
asked for only: `Ends` lists the four ways, each with the errors put aside by then.

Main statement: a run gives a result exactly if all errors are skipped, no token is refused and the
state behind the last token is complete. Such a run has asked for every item, so it has put aside
all errors of the stream. Positions matter only to errors.
-/

namespace TinyC

/-! ## Items -/

namespace Item

def token? : Item → Option (Spanned Token)
  | .ok t => some t
  | .error _ => none

def error? : Item → Option LexicalError
  | .ok _ => none
  | .error e => some e

@[simp] theorem filterMap_token?_ok (t : Spanned Token) (items : List Item) :
    (.ok t :: items).filterMap token? = t :: items.filterMap token? := rfl

@[simp] theorem filterMap_token?_error (e : LexicalError) (items : List Item) :
    (.error e :: items).filterMap token? = items.filterMap token? := rfl

@[simp] theorem filterMap_error?_ok (t : Spanned Token) (items : List Item) :
    (.ok t :: items).filterMap error? = items.filterMap error? := rfl

@[simp] theorem filterMap_error?_error (e : LexicalError) (items : List Item) :
    (.error e :: items).filterMap error? = e :: items.filterMap error? := rfl

theorem mem_of_token? {items : List Item} {t : Spanned Token} (h : t ∈ items.filterMap token?) :
    .ok t ∈ items := by
  obtain ⟨item, hitem, htoken⟩ := List.mem_filterMap.mp h
  cases item with
  | ok t' =>
    cases htoken
    exact hitem
  | error e => cases htoken

theorem mem_of_error? {items : List Item} {e : LexicalError} (h : e ∈ items.filterMap error?) :
    .error e ∈ items := by
  obtain ⟨item, hitem, herror⟩ := List.mem_filterMap.mp h
  cases item with
  | ok t => cases herror
  | error e' =>
    cases herror
    exact hitem

/-- Every error among the items is one to skip. -/
def AllSkipped (skips : LexicalError → Bool) (items : List Item) : Prop :=
  ∀ e, .error e ∈ items → skips e = true

variable {skips : LexicalError → Bool} {items items' : List Item}

theorem AllSkipped.nil : AllSkipped skips [] := fun _ h => (List.not_mem_nil h).elim

theorem AllSkipped.concat (h : AllSkipped skips items) {item : Item}
    (hitem : ∀ e, item = .error e → skips e = true) : AllSkipped skips (items ++ [item]) := by
  intro e he
  rcases List.mem_append.mp he with he | he
  · exact h e he
  · exact hitem e (List.mem_singleton.mp he).symm

theorem filterMap_token?_map_ok (tokens : List (Spanned Token)) :
    (tokens.map Except.ok).filterMap token? = tokens := by
  rw [List.filterMap_map]
  exact List.filterMap_some

theorem allSkipped_map_ok (tokens : List (Spanned Token)) :
    AllSkipped skips (tokens.map Except.ok) := by
  intro e he
  obtain ⟨t, -, ht⟩ := List.mem_map.mp he
  cases ht

/-- If no error is skipped, all items must be tokens. -/
theorem AllSkipped.eq_map_ok (h : AllSkipped (fun _ => false) items) :
    items = (items.filterMap token?).map .ok := by
  rw [List.map_filterMap]
  refine Eq.trans List.filterMap_some.symm (List.filterMap_congr fun item hitem => ?_)
  cases item with
  | ok t => rfl
  | error e => cases h e hitem

end Item

namespace Machine

variable {σ α : Type} {m : Machine σ α}

/-! ## Tokens -/

/-- The state behind a sequence of tokens, if none of them is refused. -/
def read (m : Machine σ α) (state : σ) (tokens : List Token) : Option σ :=
  tokens.foldlM m.feed state

@[simp] theorem read_nil (state : σ) : m.read state [] = some state := rfl

theorem read_cons (state : σ) (t : Token) (tokens : List Token) :
    m.read state (t :: tokens) = (m.feed state t).bind (m.read · tokens) := rfl

theorem read_cons_of_feed {state state' : σ} {t : Token} (h : m.feed state t = some state')
    (tokens : List Token) : m.read state (t :: tokens) = m.read state' tokens := by
  simp [read_cons, h]

theorem read_append (state : σ) (tokens tokens' : List Token) :
    m.read state (tokens ++ tokens') = (m.read state tokens).bind (m.read · tokens') := by
  simp only [read, List.foldlM_append]
  rfl

theorem read_append_of_read {state state' : σ} {tokens : List Token}
    (h : m.read state tokens = some state') (tokens' : List Token) :
    m.read state (tokens ++ tokens') = m.read state' tokens' := by
  simp [read_append, h]

/-- What holds initially and is kept by every token taken holds behind a whole sequence. -/
theorem read_induct {I : σ → List Token → Prop}
    (step : ∀ {state state' t tokens}, I state tokens → m.feed state t = some state' →
      I state' (tokens ++ [t]))
    {state state' : σ} {before tokens : List Token} (hstate : I state before)
    (hread : m.read state tokens = some state') : I state' (before ++ tokens) := by
  induction tokens generalizing state before with
  | nil =>
    cases hread
    simpa using hstate
  | cons t tokens ih =>
    obtain ⟨next, hfeed, hrest⟩ := Option.bind_eq_some_iff.mp hread
    have hnext := ih (step hstate hfeed) hrest
    rwa [List.append_assoc] at hnext

/-- The tokens are read to the end and make up a result. -/
def Accepts (m : Machine σ α) (state : σ) (tokens : List Token) (a : α) : Prop :=
  ∃ state', m.read state tokens = some state' ∧ m.result? state' = some a

theorem Accepts.unique {state : σ} {tokens : List Token} {a b : α} (ha : m.Accepts state tokens a)
    (hb : m.Accepts state tokens b) : a = b := by
  obtain ⟨s, hs, ha⟩ := ha
  obtain ⟨s', hs', hb⟩ := hb
  obtain rfl := Option.some.inj (hs.symm.trans hs')
  exact Option.some.inj (ha.symm.trans hb)

theorem accepts_cons_iff {state : σ} {t : Token} {tokens : List Token} {a : α} :
    m.Accepts state (t :: tokens) a ↔
      ∃ state', m.feed state t = some state' ∧ m.Accepts state' tokens a := by
  simp only [Accepts, read_cons, Option.bind_eq_some_iff]
  constructor
  · rintro ⟨last, ⟨next, hfeed, hread⟩, hresult⟩
    exact ⟨next, hfeed, last, hread, hresult⟩
  · rintro ⟨next, hfeed, last, hread, hresult⟩
    exact ⟨last, ⟨next, hfeed, hread⟩, hresult⟩

/-! ## Runs on items -/

variable {skips : LexicalError → Bool} {source : List Char} {items : List Item}

/-- The byte behind the last token, or `behind` if there is none. -/
def endOf (behind : Nat) (tokens : List (Spanned Token)) : Nat :=
  (tokens.getLast?.map (·.stop)).getD behind

theorem endOf_cons (behind : Nat) (t : Spanned Token) (tokens : List (Spanned Token)) :
    endOf behind (t :: tokens) = endOf t.stop tokens := by
  cases h : tokens.getLast? with
  | none => simp [endOf, List.getLast?_cons, h]
  | some t' => simp [endOf, List.getLast?_cons, h]

theorem run_skip {e : LexicalError} (h : skips e = true) (state : σ) (behind : Nat)
    (items : List Item) (aside : List LexicalError) :
    m.run skips source state behind (.error e :: items) aside =
      m.run skips source state behind items (aside ++ [e]) := by
  rw [run, if_pos h]
  rfl

theorem run_feed {state state' : σ} {t : Spanned Token} (h : m.feed state t.value = some state')
    (behind : Nat) (items : List Item) :
    m.run skips source state behind (.ok t :: items) =
      m.run skips source state' t.stop items := by
  rw [run, h]

/-- A run gets through items of which it can take the tokens and skip the errors. -/
theorem run_append {taken : List Item} (hskipped : Item.AllSkipped skips taken) {state state' : σ}
    (hread : m.read state ((taken.filterMap Item.token?).map (·.value)) = some state')
    (behind : Nat) (items : List Item) (aside : List LexicalError) :
    m.run skips source state behind (taken ++ items) aside =
      m.run skips source state' (endOf behind (taken.filterMap Item.token?)) items
        (aside ++ taken.filterMap Item.error?) := by
  induction taken generalizing state behind aside with
  | nil =>
    cases hread
    simp [endOf]
  | cons item taken ih =>
    have hrest : Item.AllSkipped skips taken := fun e he => hskipped e (.tail _ he)
    cases item with
    | error e =>
      rw [List.cons_append, run_skip (hskipped e (.head _)), ih hrest hread, List.append_assoc]
      rfl
    | ok t =>
      obtain ⟨next, hfeed, hread⟩ := Option.bind_eq_some_iff.mp hread
      rw [List.cons_append, run_feed hfeed, ih hrest hread, Item.filterMap_token?_ok, endOf_cons]
      rfl

/-- The ways in which a machine ends on a stream of items, with the errors put aside by then. What
is behind the item that ends a run does not matter. -/
inductive Ends (m : Machine σ α) (skips : LexicalError → Bool) (source : List Char) :
    List Item → EStateM.Result Error (List LexicalError) α → Prop
  | complete {items : List Item} {a : α} : Item.AllSkipped skips items →
    m.Accepts m.start ((items.filterMap Item.token?).map (·.value)) a →
    Ends m skips source items (.ok a (items.filterMap Item.error?))
  /-- All tokens are taken, but something is missing behind them. -/
  | truncated {items : List Item} {state : σ} : Item.AllSkipped skips items →
    m.read m.start ((items.filterMap Item.token?).map (·.value)) = some state →
    m.result? state = none →
    Ends m skips source items
      (.error (.syntactic (.report source (endOf 0 (items.filterMap Item.token?)) none
        (m.expected state none))) (items.filterMap Item.error?))
  | refused {taken items : List Item} {t : Spanned Token} {state : σ} :
    Item.AllSkipped skips taken →
    m.read m.start ((taken.filterMap Item.token?).map (·.value)) = some state →
    m.feed state t.value = none →
    Ends m skips source (taken ++ .ok t :: items)
      (.error (.syntactic (.report source t.start t.value (m.expected state t.value)))
        (taken.filterMap Item.error?))
  /-- All tokens before the first error that counts are taken. -/
  | lexical {taken items : List Item} {e : LexicalError} {state : σ} :
    Item.AllSkipped skips taken →
    m.read m.start ((taken.filterMap Item.token?).map (·.value)) = some state →
    skips e = false →
    Ends m skips source (taken ++ .error e :: items)
      (.error (.lexical e) (taken.filterMap Item.error?))

theorem run_ends {taken : List Item} (hskipped : Item.AllSkipped skips taken) {state : σ}
    (hread : m.read m.start ((taken.filterMap Item.token?).map (·.value)) = some state)
    (items : List Item) :
    m.Ends skips source (taken ++ items)
      (m.run skips source state (endOf 0 (taken.filterMap Item.token?)) items
        (taken.filterMap Item.error?)) := by
  induction items generalizing taken state with
  | nil =>
    rw [List.append_nil, run]
    cases hresult : m.result? state with
    | none => exact .truncated hskipped hread hresult
    | some a => exact .complete hskipped ⟨state, hread, hresult⟩
  | cons item items ih =>
    cases item with
    | error e =>
      cases hskips : skips e with
      | false =>
        rw [run, hskips]
        exact .lexical hskipped hread hskips
      | true =>
        have htaken : Item.AllSkipped skips (taken ++ [.error e]) :=
          hskipped.concat fun e' he' => by cases he'; exact hskips
        have hnext := ih htaken (by simpa using hread)
        rw [List.filterMap_append, List.filterMap_append, List.append_assoc] at hnext
        rw [run_skip hskips]
        simpa using hnext
    | ok t =>
      cases hfeed : m.feed state t.value with
      | none =>
        rw [run, hfeed]
        exact .refused hskipped hread hfeed
      | some next =>
        have htaken : Item.AllSkipped skips (taken ++ [.ok t]) :=
          hskipped.concat fun _ he => by cases he
        have hnext : m.read m.start
            ((List.filterMap Item.token? (taken ++ [.ok t])).map (·.value)) = some next := by
          rw [List.filterMap_append, List.map_append, read_append_of_read hread]
          exact read_cons_of_feed hfeed []
        have hends := ih htaken hnext
        rw [List.filterMap_append, List.filterMap_append, List.append_assoc] at hends
        rw [run_feed hfeed]
        simpa [endOf] using hends

theorem collect_ends (m : Machine σ α) (skips : LexicalError → Bool) (source : List Char)
    (items : List Item) : m.Ends skips source items (m.collect skips source items) :=
  run_ends .nil (read_nil m.start) items

/-- A run that gives a result has asked for all items: it has put aside every error. -/
theorem collect_eq_ok_iff {a : α} {aside : List LexicalError} :
    m.collect skips source items = .ok a aside ↔
      Item.AllSkipped skips items ∧
      m.Accepts m.start ((items.filterMap Item.token?).map (·.value)) a ∧
      aside = items.filterMap Item.error? := by
  constructor
  · intro h
    have hends := m.collect_ends skips source items
    rw [h] at hends
    cases hends with
    | complete hskipped haccepts => exact ⟨hskipped, haccepts, rfl⟩
  · rintro ⟨hskipped, ⟨state, hread, hresult⟩, rfl⟩
    have hrun : m.run skips source m.start 0 (items ++ []) [] = _ :=
      run_append hskipped hread 0 [] []
    rw [List.append_nil, run, hresult] at hrun
    exact hrun

theorem outcome_eq_ok_iff {r : EStateM.Result Error (List LexicalError) α} {a : α} :
    outcome r = .ok a ↔ ∃ aside, r = .ok a aside := by
  cases r with
  | ok b aside => simp [outcome]
  | error e aside => simp [outcome]

theorem outcome_eq_error_iff {r : EStateM.Result Error (List LexicalError) α} {e : Error} :
    outcome r = .error e ↔ ∃ aside, r = .error e aside := by
  cases r with
  | ok b aside => simp [outcome]
  | error e' aside => simp [outcome]

theorem parse_eq_ok_iff {tokens : List (Spanned Token)} {a : α} :
    m.parse source (tokens.map .ok) = .ok a ↔ m.Accepts m.start (tokens.map (·.value)) a := by
  simp only [parse, outcome_eq_ok_iff, collect_eq_ok_iff, Item.filterMap_token?_map_ok,
    Item.allSkipped_map_ok, true_and, exists_and_left, exists_eq, and_true]

theorem parse_eq_error_iff {e : Error} :
    m.parse source items = .error e ↔
      ∃ aside, m.collect (fun _ => false) source items = .error e aside :=
  outcome_eq_error_iff

end Machine

/-! ## Programs -/

/-- A source is parsed if the parser gets to its end, and then all its errors are diagnostics. -/
theorem parse_eq_ok_iff {source : String} {parsed : Parsed} :
    parse source = .ok parsed ↔
      Item.AllSkipped LexicalError.isRecoverable (tokenize source) ∧
      programMachine.Accepts .start (((tokenize source).filterMap Item.token?).map (·.value))
        parsed.program ∧
      parsed.diagnostics = (tokenize source).filterMap Item.error? := by
  obtain ⟨program, diagnostics⟩ := parsed
  have hcollect : programMachine.collect LexicalError.isRecoverable source.toList
      (tokenize source) = .ok program diagnostics ↔ _ := Machine.collect_eq_ok_iff
  refine Iff.trans ?_ hcollect
  unfold parse
  cases programMachine.collect LexicalError.isRecoverable source.toList (tokenize source) with
  | ok a aside => simp
  | error e aside => simp

theorem parse_eq_error_iff {source : String} {e : Error} :
    parse source = .error e ↔
      ∃ aside, programMachine.collect LexicalError.isRecoverable source.toList (tokenize source) =
        .error e aside := by
  unfold parse
  cases programMachine.collect LexicalError.isRecoverable source.toList (tokenize source) with
  | ok a aside => simp
  | error e' aside => simp

end TinyC
