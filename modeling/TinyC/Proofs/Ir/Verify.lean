import Mathlib
import TinyC.Ir.Verify

/-!
# The verifier

What the verifier checks, said once without the order in which it checks: it accepts exactly the
well-formed functions.
-/

namespace TinyC.Ir

theorem firstRepeated?_eq_none_iff {seen names : List String} :
    firstRepeated? seen names = none ↔ names.Nodup ∧ ∀ name ∈ names, name ∉ seen := by
  induction names generalizing seen with
  | nil => simp [firstRepeated?]
  | cons name names ih =>
    by_cases hseen : name ∈ seen
    · simp [firstRepeated?, hseen]
    -- The search goes on with `name` among the names seen, which keeps it out of the rest.
    · simp only [firstRepeated?, if_neg hseen, ih, List.nodup_cons, List.forall_mem_cons]
      constructor
      · rintro ⟨hnodup, hnot⟩
        have hname : name ∉ names := fun hmem => hnot name hmem (List.mem_cons_self ..)
        exact ⟨⟨hname, hnodup⟩, hseen, fun x hx hmem => hnot x hx (List.mem_cons_of_mem _ hmem)⟩
      · rintro ⟨⟨hname, hnodup⟩, -, hnot⟩
        refine ⟨hnodup, fun x hx hmem => ?_⟩
        rcases List.mem_cons.mp hmem with rfl | hmem
        · exact hname hx
        · exact hnot x hx hmem

/-- The block is sealed and leads only to blocks of the given names. -/
def Block.Sealed (names : List String) (b : Block) : Prop :=
  ∃ t, b.terminator = some t ∧ t.targets ⊆ names

theorem Block.verify_eq_ok_iff {names : List String} {b : Block} :
    b.verify names = .ok () ↔ b.Sealed names := by
  unfold Block.verify Block.Sealed
  cases b.terminator with
  | none => simp
  | some t =>
    simp only [Option.some.injEq, exists_eq_left']
    cases hfind : t.targets.find? (· ∉ names) with
    | none =>
      have hall : t.targets ⊆ names := by
        intro target htarget
        simpa using List.find?_eq_none.mp hfind target htarget
      exact iff_of_true rfl hall
    | some target =>
      refine iff_of_false nofun fun hsub => ?_
      have hnot : target ∉ names := by simpa using List.find?_some hfind
      exact hnot (hsub (List.mem_of_find?_eq_some hfind))

structure Function.WellFormed (f : Function) : Prop where
  nonempty : f.blocks ≠ []
  names : f.blockNames.Nodup
  blocks : ∀ b ∈ f.blocks, b.Sealed f.blockNames

theorem forM_eq_ok_iff {α ε : Type} {check : α → Except ε Unit} {xs : List α} :
    xs.forM check = .ok () ↔ ∀ x ∈ xs, check x = .ok () := by
  induction xs with
  | nil => simp [pure, Except.pure]
  | cons x xs ih =>
    rw [List.forall_mem_cons, ← ih]
    -- The loop over a list begins with its first element.
    change (check x >>= fun _ => xs.forM check) = .ok () ↔ _
    cases hx : check x with
    | ok u => simp [bind, Except.bind]
    | error e => simp [bind, Except.bind]

/-- A loop fails as its first element to fail. -/
theorem forM_eq_error_iff {α ε : Type} {check : α → Except ε Unit} {xs : List α} {e : ε} :
    xs.forM check = .error e ↔ ∃ pre x post, xs = pre ++ x :: post ∧
      (∀ y ∈ pre, check y = .ok ()) ∧ check x = .error e := by
  induction xs with
  | nil => simp [pure, Except.pure]
  | cons x xs ih =>
    change (check x >>= fun _ => xs.forM check) = .error e ↔ _
    cases hx : check x with
    | error e' =>
      constructor
      · intro h
        exact ⟨[], x, xs, rfl, by simp, hx.trans h⟩
      · rintro ⟨pre, y, post, hsplit, hpre, hy⟩
        rcases List.cons_eq_append_iff.mp hsplit with ⟨rfl, heq⟩ | ⟨pre, rfl, -⟩
        · obtain ⟨rfl, rfl⟩ := List.cons.inj heq
          exact hx.symm.trans hy
        · cases hx.symm.trans (hpre x (.head _))
    | ok u =>
      change xs.forM check = .error e ↔ _
      rw [ih]
      constructor
      · rintro ⟨pre, y, post, rfl, hpre, hy⟩
        exact ⟨x :: pre, y, post, rfl, List.forall_mem_cons.mpr ⟨hx, hpre⟩, hy⟩
      · rintro ⟨pre, y, post, hsplit, hpre, hy⟩
        rcases List.cons_eq_append_iff.mp hsplit with ⟨rfl, heq⟩ | ⟨pre, rfl, rfl⟩
        · obtain ⟨rfl, rfl⟩ := List.cons.inj heq
          cases hx.symm.trans hy
        · exact ⟨pre, y, post, rfl, (List.forall_mem_cons.mp hpre).2, hy⟩

theorem Function.verify_eq (f : Function) :
    f.verify =
      if f.blocks = [] then .error (.emptyFunction f.name)
      else
        match firstRepeated? [] f.blockNames with
        | some name => .error (.duplicateBlock name)
        | none => f.blocks.forM (·.verify f.blockNames) := by
  unfold Function.verify
  by_cases hempty : f.blocks = []
  · simp only [hempty, List.isEmpty_nil, if_true]
    rfl
  · have hisEmpty : f.blocks.isEmpty = false := by simpa using hempty
    simp only [hempty, hisEmpty, Bool.false_eq_true, if_false]
    cases firstRepeated? [] f.blockNames <;> rfl

theorem Function.verify_eq_ok_iff {f : Function} : f.verify = .ok () ↔ f.WellFormed := by
  rw [f.verify_eq]
  by_cases hempty : f.blocks = []
  · rw [if_pos hempty]
    exact iff_of_false nofun fun h => h.nonempty hempty
  · rw [if_neg hempty]
    cases hrepeated : firstRepeated? [] f.blockNames with
    | some name =>
      refine iff_of_false nofun fun h => ?_
      rw [firstRepeated?_eq_none_iff.mpr ⟨h.names, by simp⟩] at hrepeated
      cases hrepeated
    | none =>
      simp only [forM_eq_ok_iff, Block.verify_eq_ok_iff]
      have hnodup := (firstRepeated?_eq_none_iff.mp hrepeated).1
      exact ⟨fun h => ⟨hempty, hnodup, h⟩, fun h => h.blocks⟩

/-! ## Functions that are not finished -/

/-- No two blocks share a name and every terminator names blocks of the function. Blocks may still
be open. -/
structure Function.Linked (f : Function) : Prop where
  names : f.blockNames.Nodup
  targets : ∀ b ∈ f.blocks, ∀ t, b.terminator = some t → t.targets ⊆ f.blockNames

namespace Function.Linked

variable {f : Function} {b : Block}

theorem sealed_iff (h : f.Linked) (hb : b ∈ f.blocks) :
    b.Sealed f.blockNames ↔ b.terminator.isSome := by
  rw [Option.isSome_iff_exists]
  constructor
  · rintro ⟨t, ht, -⟩
    exact ⟨t, ht⟩
  · rintro ⟨t, ht⟩
    exact ⟨t, ht, h.targets b hb t ht⟩

theorem block_verify_eq_error_iff (h : f.Linked) (hb : b ∈ f.blocks) {e : Error} :
    b.verify f.blockNames = .error e ↔ b.terminator = none ∧ e = .unterminatedBlock b.name := by
  cases hterminator : b.terminator with
  | none => simp [Block.verify, hterminator, eq_comm]
  | some t =>
    have hok := Block.verify_eq_ok_iff.mpr ((h.sealed_iff hb).mpr (by simp [hterminator]))
    simp [hok]

/-- Only blocks and terminators can be missing. -/
theorem verify_eq_ok_iff (h : f.Linked) :
    f.verify = .ok () ↔ f.blocks ≠ [] ∧ ∀ b ∈ f.blocks, b.terminator.isSome := by
  rw [Function.verify_eq_ok_iff]
  constructor
  · intro hf
    exact ⟨hf.nonempty, fun b hb => (h.sealed_iff hb).mp (hf.blocks b hb)⟩
  · rintro ⟨hempty, hsealed⟩
    exact ⟨hempty, h.names, fun b hb => (h.sealed_iff hb).mpr (hsealed b hb)⟩

theorem verify_eq_error_iff (h : f.Linked) {e : Error} :
    f.verify = .error e ↔
      f.blocks = [] ∧ e = .emptyFunction f.name ∨
      ∃ pre b post, f.blocks = pre ++ b :: post ∧ (∀ b' ∈ pre, b'.terminator.isSome) ∧
        b.terminator = none ∧ e = .unterminatedBlock b.name := by
  rw [f.verify_eq, firstRepeated?_eq_none_iff.mpr ⟨h.names, by simp⟩]
  by_cases hempty : f.blocks = []
  · rw [if_pos hempty, hempty]
    constructor
    · intro heq
      exact .inl ⟨rfl, (Except.error.inj heq).symm⟩
    · rintro (⟨-, rfl⟩ | ⟨pre, b, post, hnil, -⟩)
      · rfl
      · simp at hnil
  · rw [if_neg hempty, forM_eq_error_iff, or_iff_right (fun hnil => hempty hnil.1)]
    -- The verifier is asked about blocks of the function only.
    refine exists_congr fun pre => exists_congr fun b => exists_congr fun post =>
      and_congr_right fun hsplit => ?_
    have hmem : ∀ b' ∈ pre ++ b :: post, b' ∈ f.blocks := fun b' hb' => hsplit ▸ hb'
    refine and_congr (forall₂_congr fun b' hb' => ?_)
      (h.block_verify_eq_error_iff (hmem b (by simp)))
    rw [Block.verify_eq_ok_iff, h.sealed_iff (hmem b' (by simp [hb']))]

end Function.Linked

end TinyC.Ir
