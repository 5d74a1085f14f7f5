import TinyC.Proofs.Early
import TinyC.Proofs.Program.Scope

/-!
# Ways through a program

A conditional runs one of its arms, and a loop its body any number of times. So there are many ways
through a program, and on each of them names are mentioned in some order. A program may use a
variable before it has declared it although the text of the declaration comes first, as a way may
pass the declaration by.

A `Flow` sums up the ways through a piece of a program by what they do to each name, and can be put
together from the flows of its parts.
-/

namespace TinyC

open scoped Computability

namespace Mention

/-- The mention declares the variable. -/
def Declares (x : String) : Mention → Prop
  | .declare name _ => name = x
  | .use _ | .assign _ => False

/-- The mention reads or sets the variable. -/
def Uses (x : String) : Mention → Prop
  | .declare _ _ => False
  | .use name | .assign name => name = x

end Mention

/-! ## Ways -/

namespace Stmt

mutual

/-- What is mentioned on the ways through a statement. -/
def ways : Stmt → Language Mention
  | .decl d => {d.mentions}
  | .assign a => {a.mentions}
  | .ifThen cond body => {cond.mentions} * (waysAll body + 1)
  | .ifElse cond thenBody elseBody => {cond.mentions} * (waysAll thenBody + waysAll elseBody)
  | .while_ cond body => ({cond.mentions} * waysAll body)∗ * {cond.mentions}
  | .for_ init cond step body =>
    {init.mentions} *
      (({cond.mentions} * (waysAll body * {step.mentions}))∗ * {cond.mentions})
  | .block body => waysAll body
  | .empty => 1

def waysAll : List Stmt → Language Mention
  | [] => 1
  | s :: body => s.ways * waysAll body

end

end Stmt

namespace Program

def ways (p : Program) : Language Mention :=
  {p.declarations.flatMap Decl.mentions} * Stmt.waysAll p.statements

/-- On every way through a program, a variable is declared before it is read or set. -/
def DeclaresFirst (p : Program) : Prop :=
  ∀ w ∈ p.ways, ∀ x, ¬Early (Mention.Uses x) (Mention.Declares x) w

end Program

/-! ## Flows -/

@[ext]
structure Flow where
  /-- Every way declares the variable. -/
  Declares : String → Prop
  /-- Some way uses the variable before it declares it. -/
  UsesEarly : String → Prop

namespace Flow

def none : Flow := ⟨fun _ => False, fun _ => False⟩

def declare (name : String) : Flow := ⟨(· = name), fun _ => False⟩

def use (name : String) : Flow := ⟨fun _ => False, (· = name)⟩

/-- One piece behind another. -/
def seq (F G : Flow) : Flow where
  Declares x := F.Declares x ∨ G.Declares x
  UsesEarly x := F.UsesEarly x ∨ ¬F.Declares x ∧ G.UsesEarly x

/-- One piece or another. -/
def either (F G : Flow) : Flow where
  Declares x := F.Declares x ∧ G.Declares x
  UsesEarly x := F.UsesEarly x ∨ G.UsesEarly x

/-- A piece that may be passed by. -/
def maybe (F : Flow) : Flow := F.either none

/-- A variable may be set at any time behind its declaration. -/
theorem declare_seq_use (name : String) (F : Flow) :
    (declare name).seq (F.seq (use name)) = (declare name).seq F := by
  ext x
  · simp [seq, declare, use]
  · simp only [seq, declare, use]
    tauto

end Flow

def Expr.flow : Expr → Flow
  | .int _ | .float _ => .none
  | .var name => .use name
  | .binary _ lhs rhs => lhs.flow.seq rhs.flow

def Assign.flow (a : Assign) : Flow := a.value.flow.seq (.use a.name)

/-- The variable is there when its initial value is evaluated. -/
def Decl.flow (d : Decl) : Flow :=
  (Flow.declare d.name).seq
    (match d.initial with
    | none => .none
    | some e => e.flow)

def Decl.flowAll : List Decl → Flow
  | [] => .none
  | d :: decls => d.flow.seq (flowAll decls)

namespace Stmt

mutual

/-- A loop that is run again uses nothing early that it has not the first time. -/
def flow : Stmt → Flow
  | .decl d => d.flow
  | .assign a => a.flow
  | .ifThen cond body => cond.flow.seq (flowAll body).maybe
  | .ifElse cond thenBody elseBody => cond.flow.seq ((flowAll thenBody).either (flowAll elseBody))
  | .while_ cond body => cond.flow.seq (flowAll body).maybe
  | .for_ init cond step body =>
    init.flow.seq (cond.flow.seq ((flowAll body).seq step.flow).maybe)
  | .block body => flowAll body
  | .empty => .none

def flowAll : List Stmt → Flow
  | [] => .none
  | s :: body => s.flow.seq (flowAll body)

end

end Stmt

def Program.flow (p : Program) : Flow :=
  (Decl.flowAll p.declarations).seq (Stmt.flowAll p.statements)

/-! ## Flows sum up ways -/

/-- A flow says what the ways of a language do. -/
structure Flow.SumsUp (F : Flow) (L : Language Mention) : Prop where
  nonempty : ∃ w, w ∈ L
  declares : ∀ x, F.Declares x ↔ ∀ w ∈ L, ∃ m ∈ w, m.Declares x
  usesEarly : ∀ x, F.UsesEarly x ↔ ∃ w ∈ L, Early (Mention.Uses x) (Mention.Declares x) w

namespace Flow.SumsUp

variable {F G : Flow} {L M : Language Mention}

theorem none : Flow.none.SumsUp 1 where
  nonempty := ⟨[], rfl⟩
  declares x := by simp [Flow.none, Language.mem_one]
  usesEarly x := by simp [Flow.none, Language.mem_one]

theorem not_declares (h : F.SumsUp L) (x : String) :
    ¬F.Declares x ↔ ∃ w ∈ L, ∀ m ∈ w, ¬m.Declares x := by
  rw [h.declares]
  push Not
  rfl

theorem seq (hF : F.SumsUp L) (hG : G.SumsUp M) : (F.seq G).SumsUp (L * M) where
  nonempty := by
    obtain ⟨w, hw⟩ := hF.nonempty
    obtain ⟨v, hv⟩ := hG.nonempty
    exact ⟨w ++ v, Language.append_mem_mul hw hv⟩
  declares x := by
    constructor
    · rintro (h | h) _ ⟨w, hw, v, hv, rfl⟩
      · obtain ⟨m, hm, hx⟩ := (hF.declares x).mp h w hw
        exact ⟨m, List.mem_append_left _ hm, hx⟩
      · obtain ⟨m, hm, hx⟩ := (hG.declares x).mp h v hv
        exact ⟨m, List.mem_append_right _ hm, hx⟩
    -- Two ways that do not declare the variable make up one that does not.
    · contrapose!
      rintro h
      obtain ⟨w, hw, hw'⟩ := (hF.not_declares x).mp fun hx => h (.inl hx)
      obtain ⟨v, hv, hv'⟩ := (hG.not_declares x).mp fun hx => h (.inr hx)
      exact ⟨w ++ v, Language.append_mem_mul hw hv, List.forall_mem_append.mpr ⟨hw', hv'⟩⟩
  usesEarly x := by
    constructor
    · rintro (h | ⟨hd, h⟩)
      · obtain ⟨w, hw, hearly⟩ := (hF.usesEarly x).mp h
        obtain ⟨v, hv⟩ := hG.nonempty
        exact ⟨w ++ v, Language.append_mem_mul hw hv, early_append.mpr (.inl hearly)⟩
      · obtain ⟨w, hw, hnone⟩ := (hF.not_declares x).mp hd
        obtain ⟨v, hv, hearly⟩ := (hG.usesEarly x).mp h
        exact ⟨w ++ v, Language.append_mem_mul hw hv, early_append.mpr (.inr ⟨hnone, hearly⟩)⟩
    · rintro ⟨_, ⟨w, hw, v, hv, rfl⟩, hearly⟩
      rcases early_append.mp hearly with hearly | ⟨hnone, hearly⟩
      · exact .inl ((hF.usesEarly x).mpr ⟨w, hw, hearly⟩)
      · exact .inr ⟨(hF.not_declares x).mpr ⟨w, hw, hnone⟩, (hG.usesEarly x).mpr ⟨v, hv, hearly⟩⟩

theorem either (hF : F.SumsUp L) (hG : G.SumsUp M) : (F.either G).SumsUp (L + M) where
  nonempty := by
    obtain ⟨w, hw⟩ := hF.nonempty
    exact ⟨w, .inl hw⟩
  declares x := by
    simp only [Flow.either, hF.declares, hG.declares, Language.mem_add, or_imp, forall_and]
  usesEarly x := by
    simp only [Flow.either, hF.usesEarly, hG.usesEarly, Language.mem_add, or_and_right, exists_or]

theorem of_mention {m : Mention} (hd : ∀ x, F.Declares x ↔ m.Declares x)
    (hu : ∀ x, F.UsesEarly x ↔ m.Uses x) : F.SumsUp {[m]} := by
  have hmem : ∀ w, w ∈ ({[m]} : Language Mention) ↔ w = [m] := fun _ => .rfl
  refine ⟨⟨[m], rfl⟩, fun x => ?_, fun x => ?_⟩
  · simp [hmem, hd]
  · simp [hmem, hu, early_cons]

theorem declare (name : String) (ty : Ty) : (Flow.declare name).SumsUp {[.declare name ty]} :=
  of_mention (fun _ => eq_comm) fun _ => .rfl

theorem use (name : String) : (Flow.use name).SumsUp {[.use name]} :=
  of_mention (fun _ => .rfl) fun _ => eq_comm

theorem assign (name : String) : (Flow.use name).SumsUp {[.assign name]} :=
  of_mention (fun _ => .rfl) fun _ => eq_comm

theorem append {w v : List Mention} (hF : F.SumsUp {w}) (hG : G.SumsUp {v}) :
    (F.seq G).SumsUp {w ++ v} := by
  have hmul : ({w} : Language Mention) * {v} = {w ++ v} := Set.image2_singleton
  rw [← hmul]
  exact hF.seq hG

theorem maybe (hF : F.SumsUp L) : F.maybe.SumsUp (L + 1) := hF.either .none

/-- On a way that is made up of many, one of them has an early use if the whole has. -/
theorem exists_early_of_kstar {x : String} {w : List Mention} (hw : w ∈ L∗)
    (h : Early (Mention.Uses x) (Mention.Declares x) w) :
    ∃ v ∈ L, Early (Mention.Uses x) (Mention.Declares x) v := by
  obtain ⟨parts, rfl, hparts⟩ := Language.mem_kstar.mp hw
  clear hw
  induction parts with
  | nil => exact absurd h not_early_nil
  | cons v parts ih =>
    rw [List.forall_mem_cons] at hparts
    rw [List.flatten_cons, early_append] at h
    rcases h with h | ⟨-, h⟩
    · exact ⟨v, hparts.1, h⟩
    · exact ih hparts.2 h

theorem loop (hF : F.SumsUp L) (hG : G.SumsUp M) :
    (F.seq G.maybe).SumsUp ((L * M)∗ * L) := by
  have honce : ∀ w ∈ L, w ∈ (L * M)∗ * L := fun w hw =>
    Language.append_mem_mul (Language.nil_mem_kstar _) hw
  refine ⟨?_, fun x => ⟨?_, ?_⟩, fun x => ⟨?_, ?_⟩⟩
  · obtain ⟨w, hw⟩ := hF.nonempty
    exact ⟨w, honce w hw⟩
  · rintro (h | h) _ ⟨v, -, w, hw, rfl⟩
    · obtain ⟨m, hm, hx⟩ := (hF.declares x).mp h w hw
      exact ⟨m, List.mem_append_right _ hm, hx⟩
    · exact h.2.elim
  · intro h
    exact .inl ((hF.declares x).mpr fun w hw => h w (honce w hw))
  · rintro (h | ⟨hd, h | h⟩)
    · obtain ⟨w, hw, hearly⟩ := (hF.usesEarly x).mp h
      exact ⟨w, honce w hw, hearly⟩
    -- The body is run once, and the test in front of it has not declared anything.
    · obtain ⟨v, hv, hearly⟩ := ((hF.seq hG).usesEarly x).mp (.inr ⟨hd, h⟩)
      obtain ⟨w, hw⟩ := hF.nonempty
      have hstar : v ∈ (L * M)∗ := Language.mem_kstar.mpr ⟨[v], by simp, by simpa using hv⟩
      exact ⟨v ++ w, Language.append_mem_mul hstar hw, early_append.mpr (.inl hearly)⟩
    · exact h.elim
  · rintro ⟨_, ⟨v, hv, w, hw, rfl⟩, hearly⟩
    rcases early_append.mp hearly with hearly | ⟨-, hearly⟩
    · obtain ⟨u, hu, hearly⟩ := exists_early_of_kstar hv hearly
      exact (((hF.seq hG).usesEarly x).mpr ⟨u, hu, hearly⟩).imp_right fun h => ⟨h.1, .inl h.2⟩
    · exact .inl ((hF.usesEarly x).mpr ⟨w, hw, hearly⟩)

end Flow.SumsUp

/-! ### Expressions, assignments, declarations -/

namespace Expr

@[simp] theorem not_declares (e : Expr) (x : String) : ¬e.flow.Declares x := by
  induction e with
  | int | float | var => exact id
  | binary _ _ _ ihl ihr => exact fun h => h.elim ihl ihr

theorem usesEarly_iff (e : Expr) (x : String) : e.flow.UsesEarly x ↔ .use x ∈ e.mentions := by
  induction e with
  | int | float => simp [flow, Flow.none, mentions]
  | var name => simp [flow, Flow.use, mentions]
  | binary op lhs rhs ihl ihr => simp [flow, Flow.seq, mentions, ihl, ihr]

/-- An expression declares nothing, so it is the same to use a variable before it or behind it. -/
theorem flow_seq_use (e : Expr) (name : String) :
    e.flow.seq (.use name) = (Flow.use name).seq e.flow := by
  ext x
  · simp [Flow.seq, Flow.use]
  · simp [Flow.seq, Flow.use, or_comm]

theorem sumsUp (e : Expr) : e.flow.SumsUp {e.mentions} := by
  induction e with
  | int | float => exact .none
  | var name => exact .use name
  | binary _ _ _ ihl ihr => exact ihl.append ihr

end Expr

theorem Assign.sumsUp (a : Assign) : a.flow.SumsUp {a.mentions} := by
  rw [flow, Expr.flow_seq_use]
  exact (Flow.SumsUp.assign a.name).append a.value.sumsUp

theorem Decl.sumsUp (d : Decl) : d.flow.SumsUp {d.mentions} := by
  have hdeclare := Flow.SumsUp.declare d.name d.ty
  unfold flow mentions
  cases d.initial with
  | none => exact hdeclare.append (v := []) .none
  | some e =>
    rw [Option.toList_some, List.flatMap_singleton]
    exact hdeclare.append e.sumsUp

theorem Decl.sumsUp_all (decls : List Decl) :
    (Decl.flowAll decls).SumsUp {decls.flatMap Decl.mentions} := by
  induction decls with
  | nil => exact .none
  | cons d decls ih => exact d.sumsUp.append ih

/-! ### Statements and programs -/

namespace Stmt

mutual

theorem sumsUp : ∀ s : Stmt, s.flow.SumsUp s.ways
  | .decl d => by
    rw [flow, ways]
    exact d.sumsUp
  | .assign a => by
    rw [flow, ways]
    exact a.sumsUp
  | .ifThen cond body => by
    rw [flow, ways]
    exact cond.sumsUp.seq (sumsUp_all body).maybe
  | .ifElse cond thenBody elseBody => by
    rw [flow, ways]
    exact cond.sumsUp.seq ((sumsUp_all thenBody).either (sumsUp_all elseBody))
  | .while_ cond body => by
    rw [flow, ways]
    exact cond.sumsUp.loop (sumsUp_all body)
  | .for_ init cond step body => by
    rw [flow, ways]
    exact init.sumsUp.seq (cond.sumsUp.loop ((sumsUp_all body).seq step.sumsUp))
  | .block body => by
    rw [flow, ways]
    exact sumsUp_all body
  | .empty => by
    rw [flow, ways]
    exact .none

theorem sumsUp_all : ∀ body : List Stmt, (flowAll body).SumsUp (waysAll body)
  | [] => by
    rw [flowAll, waysAll]
    exact .none
  | s :: body => by
    rw [flowAll, waysAll]
    exact (sumsUp s).seq (sumsUp_all body)

end

end Stmt

theorem Program.declaresFirst_iff (p : Program) :
    p.DeclaresFirst ↔ ∀ x, ¬p.flow.UsesEarly x := by
  have hsums : p.flow.SumsUp p.ways :=
    (Decl.sumsUp_all p.declarations).seq (Stmt.sumsUp_all p.statements)
  simp only [DeclaresFirst, hsums.usesEarly, not_exists, not_and]
  exact ⟨fun h x w hw => h w hw x, fun h w hw x => h x w hw⟩

end TinyC
