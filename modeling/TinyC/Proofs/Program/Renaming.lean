import TinyC.Proofs.Program.Scope

/-!
# Renaming variables

A renaming is applied to every declaration, use and target of a program; the name of the program
stays. If it keeps the names of the program apart, the renamed program declares before use exactly
if the program does, and otherwise the first violation is the same one of the renamed name.
-/

namespace TinyC

/-! ## Renamed programs -/

section

variable (r : String → String)

def Mention.name : Mention → String
  | .declare name _ | .use name | .assign name => name

def Mention.rename : Mention → Mention
  | .declare name ty => .declare (r name) ty
  | .use name => .use (r name)
  | .assign name => .assign (r name)

def Expr.rename : Expr → Expr
  | .int n => .int n
  | .float x => .float x
  | .var name => .var (r name)
  | .binary op lhs rhs => .binary op lhs.rename rhs.rename

def Decl.rename (d : Decl) : Decl := ⟨d.ty, r d.name, d.initial.map (Expr.rename r)⟩

def Assign.rename (a : Assign) : Assign := ⟨r a.name, a.value.rename r⟩

namespace Stmt

mutual

def rename : Stmt → Stmt
  | .decl d => .decl (d.rename r)
  | .assign a => .assign (a.rename r)
  | .ifThen cond body => .ifThen (cond.rename r) (renameAll body)
  | .ifElse cond thenBody elseBody =>
    .ifElse (cond.rename r) (renameAll thenBody) (renameAll elseBody)
  | .while_ cond body => .while_ (cond.rename r) (renameAll body)
  | .for_ init cond step body =>
    .for_ (init.rename r) (cond.rename r) (step.rename r) (renameAll body)
  | .block body => .block (renameAll body)
  | .empty => .empty

def renameAll : List Stmt → List Stmt
  | [] => []
  | s :: body => s.rename :: renameAll body

end

end Stmt

namespace Program

def rename (p : Program) : Program :=
  ⟨p.name, p.declarations.map (Decl.rename r), Stmt.renameAll r p.statements⟩

/-- The names that a program mentions, as often as it does. -/
def identifiers (p : Program) : List String := p.mentions.map Mention.name

end Program

end

/-! ## Mentions -/

section

variable (r : String → String)

theorem Expr.mentions_rename (e : Expr) :
    (e.rename r).mentions = e.mentions.map (Mention.rename r) := by
  induction e with
  | int n => rfl
  | float x => rfl
  | var name => rfl
  | binary op lhs rhs ihl ihr => simp [rename, mentions, ihl, ihr]

theorem Decl.mentions_rename (d : Decl) :
    (d.rename r).mentions = d.mentions.map (Mention.rename r) := by
  obtain ⟨ty, name, initial⟩ := d
  cases initial with
  | none => rfl
  | some e => simp [rename, mentions, Mention.rename, Expr.mentions_rename]

theorem Assign.mentions_rename (a : Assign) :
    (a.rename r).mentions = a.mentions.map (Mention.rename r) := by
  simp [rename, mentions, Mention.rename, Expr.mentions_rename]

namespace Stmt

mutual

theorem mentions_rename : ∀ s : Stmt, (s.rename r).mentions = s.mentions.map (Mention.rename r)
  | .decl d => by
    simp [rename, mentions, Decl.mentions_rename]
  | .assign a => by
    simp [rename, mentions, Assign.mentions_rename]
  | .ifThen cond body | .while_ cond body => by
    simp [rename, mentions, Expr.mentions_rename, mentionsAll_renameAll body]
  | .ifElse cond thenBody elseBody => by
    simp [rename, mentions, Expr.mentions_rename, mentionsAll_renameAll thenBody,
      mentionsAll_renameAll elseBody]
  | .for_ init cond step body => by
    simp [rename, mentions, Decl.mentions_rename, Expr.mentions_rename, Assign.mentions_rename,
      mentionsAll_renameAll body]
  | .block body => by
    simp [rename, mentions, mentionsAll_renameAll body]
  | .empty => by
    simp [rename, mentions]

theorem mentionsAll_renameAll : ∀ body : List Stmt,
    mentionsAll (renameAll r body) = (mentionsAll body).map (Mention.rename r)
  | [] => by
    simp [renameAll, mentionsAll]
  | s :: body => by
    simp [renameAll, mentionsAll, mentions_rename s, mentionsAll_renameAll body]

end

end Stmt

theorem Program.mentions_rename (p : Program) :
    (p.rename r).mentions = p.mentions.map (Mention.rename r) := by
  simp only [mentions, rename, Stmt.mentionsAll_renameAll, List.map_append, List.flatMap_map,
    List.map_flatMap, Decl.mentions_rename]

end

/-! ## Checks -/

/-- The same fault with a renamed name. -/
inductive SemanticError.Renamed (r : String → String) : SemanticError → SemanticError → Prop
  | undeclaredUse (name : String) : Renamed r (.undeclaredUse name) (.undeclaredUse (r name))
  | undeclaredTarget (name : String) :
    Renamed r (.undeclaredTarget name) (.undeclaredTarget (r name))
  | redeclared (name : String) (ty : Ty) : Renamed r (.redeclared name ty) (.redeclared (r name) ty)

namespace Scope

def rename (r : String → String) (Γ : Scope) : Scope := Γ.map fun entry => (r entry.1, entry.2)

/-- The outcomes of two checks, of which the second is one of renamed mentions. -/
inductive Renamed (r : String → String) : Checked Scope → Checked Scope → Prop
  | ok (Γ : Scope) : Renamed r (.ok Γ) (.ok (Γ.rename r))
  | error {e e' : SemanticError} : e.Renamed r e' → Renamed r (.error e) (.error e')

variable {r : String → String} {names : Set String} {Γ : Scope}

/-- A name is found under its new name if no other one gets that. -/
theorem lookup_rename (hr : Set.InjOn r names) (hΓ : ∀ entry ∈ Γ, entry.1 ∈ names) {x : String}
    (hx : x ∈ names) : (Γ.rename r).lookup (r x) = Γ.lookup x := by
  induction Γ with
  | nil => rfl
  | cons entry Γ ih =>
    obtain ⟨key, ty⟩ := entry
    obtain ⟨hkey, hΓ⟩ := List.forall_mem_cons.mp hΓ
    have heq : (r x == r key) = (x == key) := by
      rw [Bool.eq_iff_iff, beq_iff_eq, beq_iff_eq]
      exact hr.eq_iff hx hkey
    change List.lookup (r x) ((r key, ty) :: rename r Γ) = List.lookup x ((key, ty) :: Γ)
    rw [List.lookup_cons, List.lookup_cons, heq, ih hΓ]

theorem allow_rename (hr : Set.InjOn r names) (hΓ : ∀ entry ∈ Γ, entry.1 ∈ names) {m : Mention}
    (hm : m.name ∈ names) : Renamed r (Γ.allow m) ((Γ.rename r).allow (m.rename r)) := by
  cases m with
  | declare name ty =>
    have hlookup : (Γ.rename r).lookup (r name) = Γ.lookup name := lookup_rename hr hΓ hm
    simp only [allow, Mention.rename, hlookup]
    cases Γ.lookup name with
    | none => exact .ok ((name, ty) :: Γ)
    | some existing => exact .error (.redeclared name existing)
  | use name =>
    have hlookup : (Γ.rename r).lookup (r name) = Γ.lookup name := lookup_rename hr hΓ hm
    simp only [allow, Mention.rename, hlookup]
    cases Γ.lookup name with
    | none => exact .error (.undeclaredUse name)
    | some existing => exact .ok Γ
  | assign name =>
    have hlookup : (Γ.rename r).lookup (r name) = Γ.lookup name := lookup_rename hr hΓ hm
    simp only [allow, Mention.rename, hlookup]
    cases Γ.lookup name with
    | none => exact .error (.undeclaredTarget name)
    | some existing => exact .ok Γ

theorem keys_of_allow {Γ' : Scope} (hΓ : ∀ entry ∈ Γ, entry.1 ∈ names) {m : Mention}
    (hm : m.name ∈ names) (h : Γ.allow m = .ok Γ') : ∀ entry ∈ Γ', entry.1 ∈ names := by
  cases m with
  | declare name ty =>
    simp only [allow] at h
    split at h
    · cases h
    · cases h
      exact List.forall_mem_cons.mpr ⟨hm, hΓ⟩
  | use name | assign name =>
    simp only [allow] at h
    split at h
    · cases h
      exact hΓ
    · cases h

theorem allowAll_rename (hr : Set.InjOn r names) (hΓ : ∀ entry ∈ Γ, entry.1 ∈ names)
    {mentions : List Mention} (hm : ∀ m ∈ mentions, m.name ∈ names) :
    Renamed r (Γ.allowAll mentions) ((Γ.rename r).allowAll (mentions.map (Mention.rename r))) := by
  induction mentions generalizing Γ with
  | nil => exact .ok Γ
  | cons m mentions ih =>
    obtain ⟨hm, hmentions⟩ := List.forall_mem_cons.mp hm
    rw [List.map_cons, allowAll_cons, allowAll_cons]
    have hallow := allow_rename hr hΓ hm
    generalize hfirst : Γ.allow m = first at hallow
    generalize (Γ.rename r).allow (m.rename r) = first' at hallow
    -- A violation ends both checks, and any other mention leaves renamed scopes.
    cases hallow with
    | error he => exact .error he
    | ok Γ₁ => exact ih (keys_of_allow hΓ hm hfirst) hmentions

end Scope

theorem Program.check_rename {r : String → String} {p : Program}
    (hr : Set.InjOn r {x | x ∈ p.identifiers}) : Scope.Renamed r p.check (p.rename r).check := by
  unfold check
  rw [mentions_rename]
  exact Scope.allowAll_rename hr (List.forall_mem_nil _) fun m hm => List.mem_map_of_mem hm

end TinyC
