import TinyC.Proofs.Text.Position

/-!
# Offsets and lines

The lines of a text are its pieces between line feeds. An offset between two characters lies in one
of them: the line feeds before it count the lines above, the characters behind the last of these
line feeds count the columns, and the line that is quoted for the offset is that line. A later
offset has a later position.
-/

namespace TinyC.Text

/-- The lines of a text. There is one more than there are line feeds. -/
def lines (text : List Char) : List (List Char) := text.splitOn '\n'

/-- The offset is between two characters of a text, or at one of its ends. -/
def Boundary (text : List Char) (offset : Nat) : Prop :=
  ∃ before after, text = before ++ after ∧ offset = byteSize before

/-- The text of whole lines. -/
def closeLines (ls : List (List Char)) : List Char := ls.flatMap (· ++ ['\n'])

/-- A position and a quotation tell where an offset lies: so many lines are above, so many
characters of the line are before the offset, and the line is quoted without the blanks around it.
An offset past the end counts as the end. -/
inductive Shows (text : List Char) (offset : Nat) : Position → List Char → Prop
  | intro {above below : List (List Char)} {head tail : List Char} :
    lines text = above ++ (head ++ tail) :: below →
    byteSize (closeLines above ++ head) = min offset (byteSize text) →
    Shows text offset ⟨above.length + 1, head.length + 1⟩ (trim (head ++ tail))

/-- The quotation is the line that the line number names. -/
theorem Shows.line {text context : List Char} {offset : Nat} {p : Position}
    (h : Shows text offset p context) : ((lines text)[p.line - 1]?).map trim = some context := by
  cases h with
  | intro hlines _ => simp [hlines]

/-- The position comes before another one in the order of lines and columns. -/
def Position.Precedes (p q : Position) : Prop :=
  p.line < q.line ∨ p.line = q.line ∧ p.column < q.column

/-! ## Lines before an offset -/

theorem closeLines_append (ls ls' : List (List Char)) :
    closeLines (ls ++ ls') = closeLines ls ++ closeLines ls' :=
  List.flatMap_append

theorem feed_not_mem_lastLine (text : List Char) : '\n' ∉ lastLine text := by
  intro hmem
  rw [lastLine, List.mem_reverse] at hmem
  simpa using List.mem_takeWhile_imp hmem

/-- A text is whole lines and what stands behind its last line feed. -/
theorem exists_closeLines (text : List Char) :
    ∃ above, text = closeLines above ++ lastLine text ∧ above.length = text.count '\n' ∧
      ∀ l ∈ above, '\n' ∉ l := by
  induction text using List.reverseRecOn with
  | nil => exact ⟨[], rfl, rfl, by simp⟩
  | append_singleton text c ih =>
    obtain ⟨above, htext, hlength, habove⟩ := ih
    by_cases hc : c = '\n'
    -- A line feed closes the line.
    · subst hc
      refine ⟨above ++ [lastLine text], ?_, by simp [hlength], ?_⟩
      · rw [lastLine_concat_feed, closeLines_append, List.append_nil]
        nth_rewrite 1 [htext]
        simp [closeLines]
      · simpa [or_imp, forall_and] using ⟨habove, feed_not_mem_lastLine text⟩
    · refine ⟨above, ?_, ?_, habove⟩
      · rw [lastLine_concat hc, ← List.append_assoc, ← htext]
      · simpa [hc] using hlength

/-- Whole lines are lines of the text. -/
theorem lines_closeLines {above : List (List Char)} (h : ∀ l ∈ above, '\n' ∉ l)
    (text : List Char) : lines (closeLines above ++ text) = above ++ lines text := by
  induction above with
  | nil => rfl
  | cons l above ih =>
    obtain ⟨hl, habove⟩ := List.forall_mem_cons.mp h
    have hsplit : lines (l ++ '\n' :: (closeLines above ++ text)) =
        lines l ++ lines (closeLines above ++ text) :=
      List.splitOnP_append_cons l _ (by simp)
    have hline : lines l = [l] := List.splitOn_eq_singleton hl
    calc lines (closeLines (l :: above) ++ text)
        = lines (l ++ '\n' :: (closeLines above ++ text)) := by simp [closeLines]
      _ = [l] ++ (above ++ lines text) := by rw [hsplit, hline, ih habove]
      _ = l :: above ++ lines text := rfl

/-- The first line ends at the first line feed, or at the end of the text. -/
theorem lines_append {head : List Char} (h : '\n' ∉ head) (after : List Char) :
    ∃ below, lines (head ++ after) = (head ++ firstLine after) :: below := by
  have hline : '\n' ∉ head ++ firstLine after := by
    refine List.not_mem_append h fun hmem => ?_
    simpa using List.mem_takeWhile_imp hmem
  have hsplit := List.takeWhile_append_dropWhile (p := (· ≠ '\n')) (l := after)
  cases hrest : after.dropWhile (· ≠ '\n') with
  | nil =>
    refine ⟨[], ?_⟩
    rw [hrest, List.append_nil] at hsplit
    nth_rewrite 1 [← hsplit]
    exact List.splitOn_eq_singleton hline
  | cons c rest =>
    obtain rfl : c = '\n' := by
      have hhead := List.head?_dropWhile_not (· ≠ '\n') after
      rw [hrest] at hhead
      simpa using hhead
    refine ⟨lines rest, ?_⟩
    rw [hrest] at hsplit
    nth_rewrite 1 [← hsplit]
    rw [← List.append_assoc]
    exact (List.splitOnP_append_cons _ rest (by simp)).trans
      (congrArg (· ++ _) (List.splitOn_eq_singleton hline))

/-! ## Positions and quotations -/

theorem shows_byteSize (before after : List Char) :
    Shows (before ++ after) (byteSize before)
      (positionOf (before ++ after) (byteSize before))
      (contextOf (before ++ after) (byteSize before)) := by
  obtain ⟨above, hbefore, hlength, habove⟩ := exists_closeLines before
  obtain ⟨below, hbelow⟩ := lines_append (feed_not_mem_lastLine before) after
  have hlines : lines (before ++ after) =
      above ++ (lastLine before ++ firstLine after) :: below := by
    nth_rewrite 1 [hbefore]
    rw [List.append_assoc, lines_closeLines habove, hbelow]
  rw [positionOf_byteSize, contextOf_byteSize, ← hlength]
  refine .intro hlines ?_
  rw [← hbefore]
  simp

/-- Past its last character a walk goes no further. -/
theorem Position.walk_of_le (p : Position) {text : List Char} {offset : Nat}
    (h : byteSize text ≤ offset) : p.walk text offset = text.foldl advance p := by
  induction text generalizing p offset with
  | nil => cases offset <;> rfl
  | cons c cs ih =>
    have hpos := c.utf8Size_pos
    rw [byteSize_cons] at h
    obtain ⟨n, rfl⟩ : ∃ n, offset = n + 1 := ⟨offset - 1, by omega⟩
    rw [walk, ih _ (by omega)]
    rfl

theorem shows_of_le {text : List Char} {offset : Nat} (h : byteSize text ≤ offset) :
    Shows text offset (positionOf text offset) (contextOf text offset) := by
  have hend := shows_byteSize text []
  have hposition : positionOf text offset = positionOf text (byteSize text) := by
    rw [positionOf, positionOf, Position.walk_of_le _ h, Position.walk_of_le _ (Nat.le_refl _)]
  have hcontext : contextOf text offset = contextOf text (byteSize text) := by
    rw [contextOf, contextOf, Nat.min_eq_right h, Nat.min_self]
  rw [hposition, hcontext]
  rw [List.append_nil] at hend
  generalize positionOf text (byteSize text) = p at hend ⊢
  generalize contextOf text (byteSize text) = context at hend ⊢
  cases hend with
  | intro hlines hsize => exact .intro hlines (by rw [hsize, Nat.min_self, Nat.min_eq_right h])

theorem Boundary.shows {text : List Char} {offset : Nat} (h : Boundary text offset) :
    Shows text offset (positionOf text offset) (contextOf text offset) := by
  obtain ⟨before, after, rfl, rfl⟩ := h
  exact shows_byteSize before after

/-! ## The order of positions -/

theorem lastLine_append {cs : List Char} (h : '\n' ∉ cs) (text : List Char) :
    lastLine (text ++ cs) = lastLine text ++ cs := by
  induction cs using List.reverseRecOn with
  | nil => simp
  | append_singleton cs c ih =>
    rw [List.mem_append, List.mem_singleton, not_or] at h
    rw [← List.append_assoc, lastLine_concat (Ne.symm h.2), ih h.1, List.append_assoc]

/-- A later offset has a later position. -/
theorem Boundary.precedes {text : List Char} {p q : Nat} (hp : Boundary text p)
    (hq : Boundary text q) (h : p < q) : (positionOf text p).Precedes (positionOf text q) := by
  obtain ⟨before, after, rfl, rfl⟩ := hp
  obtain ⟨before', after', heq, rfl⟩ := hq
  -- Of two texts at the head of one text the smaller one is at the head of the other.
  obtain ⟨between, rfl⟩ : before <+: before' := by
    refine List.prefix_of_prefix_length_le (List.prefix_append _ after) ⟨after', heq.symm⟩ ?_
    by_contra hlt
    obtain ⟨rest, rfl⟩ : before' <+: before :=
      List.prefix_of_prefix_length_le ⟨after', heq.symm⟩ (List.prefix_append _ after)
        (Nat.le_of_not_le hlt)
    rw [byteSize_append] at h
    omega
  rw [positionOf_byteSize, heq, positionOf_byteSize]
  by_cases hfeed : '\n' ∈ between
  · have hcount := List.count_pos_iff.mpr hfeed
    refine .inl ?_
    simp only [List.count_append]
    omega
  · have hne : between ≠ [] := by
      rintro rfl
      simp at h
    have hlength := List.length_pos_iff.mpr hne
    refine .inr ⟨by simp [List.count_eq_zero_of_not_mem hfeed], ?_⟩
    simp only [lastLine_append hfeed, List.length_append]
    omega

end TinyC.Text
