import Mathlib

/-!
# Early uses

In a list of things that are done one after the other, something may be used before it is made.
-/

namespace TinyC

variable {α : Type} {use make : α → Prop} {a : α} {l l' : List α}

/-- An element with `use` comes with no element with `make` before it. -/
def Early (use make : α → Prop) (l : List α) : Prop :=
  ∃ pre a post, l = pre ++ a :: post ∧ use a ∧ ∀ b ∈ pre, ¬make b

@[simp] theorem not_early_nil : ¬Early use make [] := by
  simp [Early]

theorem early_cons : Early use make (a :: l) ↔ use a ∨ ¬make a ∧ Early use make l := by
  constructor
  · rintro ⟨pre, b, post, heq, hb, hpre⟩
    rcases List.cons_eq_append_iff.mp heq with ⟨rfl, heq⟩ | ⟨pre', rfl, rfl⟩
    · cases heq
      exact .inl hb
    · rw [List.forall_mem_cons] at hpre
      exact .inr ⟨hpre.1, pre', b, post, rfl, hb, hpre.2⟩
  · rintro (ha | ⟨ha, pre, b, post, rfl, hb, hpre⟩)
    · exact ⟨[], a, l, rfl, ha, by simp⟩
    · exact ⟨a :: pre, b, post, rfl, hb, List.forall_mem_cons.mpr ⟨ha, hpre⟩⟩

theorem early_append :
    Early use make (l ++ l') ↔ Early use make l ∨ (∀ b ∈ l, ¬make b) ∧ Early use make l' := by
  induction l with
  | nil => simp
  | cons a l ih =>
    rw [List.cons_append, early_cons, early_cons, ih, List.forall_mem_cons]
    tauto

/-- Where nothing is made, every use is early. -/
theorem early_iff_exists (h : ∀ b ∈ l, ¬make b) : Early use make l ↔ ∃ a ∈ l, use a := by
  induction l with
  | nil => simp
  | cons a l ih =>
    rw [List.forall_mem_cons] at h
    simp [early_cons, h.1, ih h.2]

end TinyC
