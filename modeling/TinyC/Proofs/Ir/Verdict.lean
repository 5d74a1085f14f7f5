import TinyC.Proofs.Ir.Verify

/-!
# Verdicts

What the verifier finds first. A function may have several faults at once: a name that is used twice
anywhere comes before all blocks that do not end properly, and of these the first one in order
counts. `Fault` says which error that is, without running the verifier. Main statement: a function
is accepted if it is well formed, and is rejected for its fault otherwise; a module is rejected for
the first of its functions that is.
-/

namespace TinyC.Ir

/-! ## Names used twice -/

/-- The name found is the first one that has been seen, in the list or before it. -/
theorem firstRepeated?_eq_some_iff {seen names : List String} {name : String} :
    firstRepeated? seen names = some name ↔ ∃ pre post : List String,
      names = pre ++ name :: post ∧ pre.Nodup ∧ (∀ x ∈ pre, x ∉ seen) ∧
      (name ∈ seen ∨ name ∈ pre) := by
  induction names generalizing seen with
  | nil => simp [firstRepeated?]
  | cons x names ih =>
    by_cases hx : x ∈ seen
    · simp only [firstRepeated?, if_pos hx, Option.some.injEq]
      constructor
      · rintro rfl
        exact ⟨[], names, rfl, List.nodup_nil, List.forall_mem_nil _, .inl hx⟩
      · rintro ⟨pre, post, heq, -, hpre, -⟩
        rcases List.cons_eq_append_iff.mp heq with ⟨rfl, heq⟩ | ⟨pre, rfl, -⟩
        · exact (List.cons.inj heq).1
        · exact absurd hx (hpre x (.head _))
    -- The search goes on with `x` among the names seen, and `x` belongs to what is before.
    · simp only [firstRepeated?, if_neg hx, ih]
      constructor
      · rintro ⟨pre, post, rfl, hnodup, hpre, hname⟩
        have hfresh : x ∉ pre := fun hmem => hpre x hmem (.head _)
        refine ⟨x :: pre, post, rfl, List.nodup_cons.mpr ⟨hfresh, hnodup⟩, ?_, ?_⟩
        · exact List.forall_mem_cons.mpr ⟨hx, fun y hy hmem => hpre y hy (.tail _ hmem)⟩
        · simpa [or_left_comm, or_assoc] using hname
      · rintro ⟨pre, post, heq, hnodup, hpre, hname⟩
        rcases List.cons_eq_append_iff.mp heq with ⟨rfl, heq⟩ | ⟨pre, rfl, rfl⟩
        · obtain ⟨rfl, -⟩ := List.cons.inj heq
          simp [hx] at hname
        · rw [List.nodup_cons] at hnodup
          rw [List.forall_mem_cons] at hpre
          refine ⟨pre, post, rfl, hnodup.2, fun y hy hmem => ?_, ?_⟩
          · rcases List.mem_cons.mp hmem with rfl | hmem
            · exact hnodup.1 hy
            · exact hpre.2 y hy hmem
          · simpa [or_left_comm, or_assoc] using hname

theorem Function.firstRepeated?_eq_some_iff {f : Function} {name : String} :
    firstRepeated? [] f.blockNames = some name ↔ ∃ (pre : List Block) (b : Block)
      (post : List Block), f.blocks = pre ++ b :: post ∧ (pre.map Block.name).Nodup ∧
      b.name ∈ pre.map Block.name ∧ b.name = name := by
  simp only [Ir.firstRepeated?_eq_some_iff, List.not_mem_nil, not_false_eq_true, implies_true,
    false_or, true_and, blockNames]
  constructor
  · rintro ⟨_, _, heq, hnodup, hname⟩
    obtain ⟨pre, rest, hblocks, rfl, hrest⟩ := List.map_eq_append_iff.mp heq
    obtain ⟨b, post, rfl, rfl, rfl⟩ := List.map_eq_cons_iff.mp hrest
    exact ⟨pre, b, post, hblocks, hnodup, hname, rfl⟩
  · rintro ⟨pre, b, post, hblocks, hnodup, hname, rfl⟩
    exact ⟨pre.map Block.name, post.map Block.name, by simp [hblocks], hnodup, hname⟩

/-! ## Blocks -/

/-- The first target that is not among the names: that of the condition comes before the other. -/
inductive Terminator.Misses (names : List String) : Terminator → String → Prop
  | br {target : String} : target ∉ names → Misses names (.br target) target
  | thenTarget {cond : Value} {thenTarget elseTarget : String} : thenTarget ∉ names →
    Misses names (.condBr cond thenTarget elseTarget) thenTarget
  | elseTarget {cond : Value} {thenTarget elseTarget : String} : thenTarget ∈ names →
    elseTarget ∉ names → Misses names (.condBr cond thenTarget elseTarget) elseTarget

theorem Terminator.find?_targets_eq_some_iff {names : List String} {t : Terminator}
    {target : String} : t.targets.find? (· ∉ names) = some target ↔ t.Misses names target := by
  constructor
  · intro h
    cases t with
    | br l =>
      obtain ⟨hl, rfl⟩ : l ∉ names ∧ l = target := by simpa [targets] using h
      exact .br hl
    | condBr cond l k =>
      by_cases hl : l ∈ names
      · obtain ⟨hk, rfl⟩ : k ∉ names ∧ k = target := by simpa [targets, hl] using h
        exact .elseTarget hl hk
      · obtain rfl : l = target := by simpa [targets, hl] using h
        exact .thenTarget hl
    | ret value => simp [targets] at h
  · intro h
    cases h with
    | br hl => simp [targets, hl]
    | thenTarget hl => simp [targets, hl]
    | elseTarget hl hk => simp [targets, hl, hk]

/-- Why a block does not end properly. -/
inductive Block.Fault (names : List String) (b : Block) : Error → Prop
  | unterminated : b.terminator = none → Fault names b (.unterminatedBlock b.name)
  | unknownTarget {t : Terminator} {target : String} : b.terminator = some t →
    t.Misses names target → Fault names b (.unknownTarget b.name target)

theorem Block.verify_eq_error_iff {names : List String} {b : Block} {e : Error} :
    b.verify names = .error e ↔ b.Fault names e := by
  unfold Block.verify
  constructor
  · intro h
    cases hterminator : b.terminator with
    | none =>
      simp only [hterminator, Except.error.injEq] at h
      subst h
      exact .unterminated hterminator
    | some t =>
      cases hfind : t.targets.find? (· ∉ names) with
      | none => simp only [hterminator, hfind, reduceCtorEq] at h
      | some target =>
        simp only [hterminator, hfind, Except.error.injEq] at h
        subst h
        exact .unknownTarget hterminator (Terminator.find?_targets_eq_some_iff.mp hfind)
  · intro h
    cases h with
    | unterminated hterminator => simp only [hterminator]
    | unknownTarget hterminator hmisses =>
      simp only [hterminator, Terminator.find?_targets_eq_some_iff.mpr hmisses]

/-! ## Functions and modules -/

/-- What is found first in a function that is not well formed. -/
inductive Function.Fault (f : Function) : Error → Prop
  | empty : f.blocks = [] → f.Fault (.emptyFunction f.name)
  /-- The block is the first one that is called like one before it. -/
  | duplicate {pre post : List Block} {b : Block} : f.blocks = pre ++ b :: post →
    (pre.map Block.name).Nodup → b.name ∈ pre.map Block.name → f.Fault (.duplicateBlock b.name)
  /-- The block is the first one that does not end properly. -/
  | block {pre post : List Block} {b : Block} {e : Error} : f.blockNames.Nodup →
    f.blocks = pre ++ b :: post → (∀ b' ∈ pre, b'.Sealed f.blockNames) →
    b.Fault f.blockNames e → f.Fault e

theorem Function.verify_eq_error_iff {f : Function} {e : Error} :
    f.verify = .error e ↔ f.Fault e := by
  rw [f.verify_eq]
  constructor
  · intro h
    by_cases hempty : f.blocks = []
    · rw [if_pos hempty] at h
      cases h
      exact .empty hempty
    rw [if_neg hempty] at h
    cases hrepeated : firstRepeated? [] f.blockNames with
    | some name =>
      simp only [hrepeated, Except.error.injEq] at h
      subst h
      obtain ⟨pre, b, post, hblocks, hnodup, hmem, rfl⟩ :=
        firstRepeated?_eq_some_iff.mp hrepeated
      exact .duplicate hblocks hnodup hmem
    | none =>
      simp only [hrepeated] at h
      obtain ⟨pre, b, post, hblocks, hpre, hb⟩ := forM_eq_error_iff.mp h
      refine .block (firstRepeated?_eq_none_iff.mp hrepeated).1 hblocks ?_
        (Block.verify_eq_error_iff.mp hb)
      exact fun b' hb' => Block.verify_eq_ok_iff.mp (hpre b' hb')
  · intro h
    cases h with
    | empty hempty => rw [if_pos hempty]
    | duplicate hblocks hnodup hmem =>
      rw [if_neg (by simp [hblocks]),
        firstRepeated?_eq_some_iff.mpr ⟨_, _, _, hblocks, hnodup, hmem, rfl⟩]
    | block hnodup hblocks hpre hb =>
      rw [if_neg (by simp [hblocks]), firstRepeated?_eq_none_iff.mpr ⟨hnodup, by simp⟩]
      refine forM_eq_error_iff.mpr ⟨_, _, _, hblocks, fun b' hb' => ?_,
        Block.verify_eq_error_iff.mpr hb⟩
      exact Block.verify_eq_ok_iff.mpr (hpre b' hb')

/-- The verifier accepts exactly the well-formed functions and finds what is wrong first with the
others. A module gets the verdict of the first function that is rejected. -/
theorem verify_decides :
    (∀ f : Function, (f.verify = .ok () ↔ f.WellFormed) ∧
      ∀ e, f.verify = .error e ↔ f.Fault e) ∧
    ∀ m : Module, (m.verify = .ok () ↔ ∀ f ∈ m.functions, f.verify = .ok ()) ∧
      ∀ e, m.verify = .error e ↔ ∃ (pre : List Function) (f : Function) (post : List Function),
        m.functions = pre ++ f :: post ∧ (∀ g ∈ pre, g.verify = .ok ()) ∧
        f.verify = .error e := by
  refine ⟨fun f => ⟨f.verify_eq_ok_iff, fun e => f.verify_eq_error_iff⟩, fun m => ⟨?_, ?_⟩⟩
  · exact forM_eq_ok_iff
  · exact fun e => forM_eq_error_iff

end TinyC.Ir
