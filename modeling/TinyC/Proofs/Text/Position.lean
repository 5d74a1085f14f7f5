import Mathlib
import TinyC.Token.Error

/-!
# Positions behind a text

Where an offset is the size of a text at the head of the source, its position and the line around it
can be told from that text: the line feeds in it, and what stands behind the last one.
-/

namespace TinyC

namespace Text

/-! ## Bytes -/

theorem length_le_byteSize (cs : List Char) : cs.length ≤ byteSize cs := by
  induction cs with
  | nil => exact Nat.le_refl _
  | cons c cs ih =>
    have hpos := c.utf8Size_pos
    rw [List.length_cons, byteSize_cons]
    omega

theorem utf8Size_eq_one {cs : List Char} (h : byteSize cs = cs.length) {c : Char} (hc : c ∈ cs) :
    c.utf8Size = 1 := by
  obtain ⟨before, after, rfl⟩ := List.append_of_mem hc
  have hbefore := length_le_byteSize before
  have hafter := length_le_byteSize after
  have hpos := c.utf8Size_pos
  rw [byteSize_append, byteSize_cons, List.length_append, List.length_cons] at h
  omega

theorem exists_byteSize_cons (c : Char) (cs : List Char) : ∃ n, byteSize (c :: cs) = n + 1 :=
  Nat.exists_eq_add_one.mpr (Nat.add_pos_left c.utf8Size_pos _)

/-! ## Lines -/

@[simp] theorem lastLine_concat_feed (cs : List Char) : lastLine (cs ++ ['\n']) = [] := by
  simp [lastLine]

theorem lastLine_concat {c : Char} (hc : c ≠ '\n') (cs : List Char) :
    lastLine (cs ++ [c]) = lastLine cs ++ [c] := by
  simp [lastLine, hc]

/-- What stands before a line feed does not matter behind it. -/
theorem lastLine_append_feed (as bs : List Char) : lastLine (as ++ '\n' :: bs) = lastLine bs := by
  induction bs using List.reverseRecOn with
  | nil => simp [lastLine]
  | append_singleton bs c ih =>
    by_cases hc : c = '\n'
    · subst hc
      rw [← List.cons_append, ← List.append_assoc, lastLine_concat_feed, lastLine_concat_feed]
    · rw [← List.cons_append, ← List.append_assoc, lastLine_concat hc, lastLine_concat hc, ih]

/-- What stands behind a line feed does not matter before it. -/
theorem firstLine_append_feed (as bs : List Char) :
    firstLine (as ++ '\n' :: bs) = firstLine as := by
  induction as with
  | nil => simp [firstLine]
  | cons a as ih =>
    simp only [firstLine, List.cons_append, List.takeWhile_cons] at ih ⊢
    rw [ih]

/-! ## Positions -/

theorem splitAt?_byteSize (before after : List Char) :
    splitAt? (before ++ after) (byteSize before) = some (before, after) := by
  induction before with
  | nil => simp [splitAt?]
  | cons c cs ih =>
    obtain ⟨n, hn⟩ := exists_byteSize_cons c cs
    rw [byteSize_cons] at hn
    have hle : c.utf8Size ≤ n + 1 := by omega
    have hrest : n + 1 - c.utf8Size = byteSize cs := by omega
    rw [byteSize_cons, hn, List.cons_append, splitAt?, if_pos hle, hrest, ih]
    rfl

theorem Position.walk_byteSize (p : Position) (before after : List Char) :
    p.walk (before ++ after) (byteSize before) = before.foldl advance p := by
  induction before generalizing p with
  | nil => simp
  | cons c cs ih =>
    obtain ⟨n, hn⟩ := exists_byteSize_cons c cs
    rw [byteSize_cons] at hn
    have hrest : n + 1 - c.utf8Size = byteSize cs := by omega
    rw [byteSize_cons, hn, List.cons_append, walk, hrest, ih]
    rfl

/-- Lines are counted by line feeds, and columns by the characters behind the last one. -/
theorem Position.foldl_advance (cs : List Char) :
    cs.foldl advance first = ⟨cs.count '\n' + 1, (lastLine cs).length + 1⟩ := by
  induction cs using List.reverseRecOn with
  | nil => rfl
  | append_singleton cs c ih =>
    rw [List.foldl_append, ih, List.foldl_cons, List.foldl_nil, advance]
    by_cases hc : c = '\n'
    · simp [hc]
    · simp [hc, lastLine_concat]

theorem positionOf_byteSize (before after : List Char) :
    positionOf (before ++ after) (byteSize before) =
      ⟨before.count '\n' + 1, (lastLine before).length + 1⟩ := by
  rw [positionOf, Position.walk_byteSize, Position.foldl_advance]

theorem contextOf_byteSize (before after : List Char) :
    contextOf (before ++ after) (byteSize before) = trim (lastLine before ++ firstLine after) := by
  have hmin : min (byteSize before) (byteSize (before ++ after)) = byteSize before := by
    simp
  rw [contextOf, hmin, splitAt?_byteSize]

end Text

open Text

/-- What is reported of a text behind another one. -/
theorem LexicalError.report_byteSize (before after : List Char) (fault : LexicalFault)
    (lexeme : List Char) : report (before ++ after) fault (byteSize before) lexeme =
      { fault
        location := byteSize before
        position := ⟨before.count '\n' + 1, (lastLine before).length + 1⟩
        char := lexeme.headD (Char.ofNat 0)
        lexeme := String.ofList lexeme
        context := String.ofList (trim (lastLine before ++ firstLine after)) } := by
  rw [report, positionOf_byteSize, contextOf_byteSize]

end TinyC
