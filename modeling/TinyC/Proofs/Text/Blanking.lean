import TinyC.Proofs.Text.Position

/-!
# Texts with blanks in them

Characters of a text can be replaced by blanks, one for each byte, so that all others keep their
place. If no line feed is replaced, they also keep their line.
-/

namespace TinyC.Text

/-- The text with characters replaced by blanks, one for each byte. These are the characters whose
first byte is marked. -/
def blankOut (marked : Nat → Bool) : Nat → List Char → List Char
  | _, [] => []
  | offset, c :: cs =>
    (if marked offset then List.replicate c.utf8Size ' ' else [c]) ++
      blankOut marked (offset + c.utf8Size) cs

section

variable {marked marked' : Nat → Bool} {offset : Nat} {cs : List Char}

@[simp] theorem blankOut_nil : blankOut marked offset [] = [] := rfl

theorem blankOut_append (as bs : List Char) : blankOut marked offset (as ++ bs) =
    blankOut marked offset as ++ blankOut marked (offset + byteSize as) bs := by
  induction as generalizing offset with
  | nil => rfl
  | cons a as ih => simp [blankOut, ih, Nat.add_assoc]

theorem blankOut_congr (h : ∀ b, offset ≤ b → marked b = marked' b) :
    blankOut marked offset cs = blankOut marked' offset cs := by
  induction cs generalizing offset with
  | nil => rfl
  | cons c cs ih =>
    rw [blankOut, blankOut, h offset (Nat.le_refl _), ih fun b hb => h b (Nat.le_of_add_right_le hb)]

theorem blankOut_eq_self (h : ∀ b, offset ≤ b → b < offset + byteSize cs → marked b = false) :
    blankOut marked offset cs = cs := by
  induction cs generalizing offset with
  | nil => rfl
  | cons c cs ih =>
    have hpos := c.utf8Size_pos
    rw [byteSize_cons] at h
    rw [blankOut, h offset (Nat.le_refl _) (by omega),
      ih fun b hle hlt => h b (by omega) (by omega)]
    rfl

theorem blankOut_eq_replicate (h : ∀ b, offset ≤ b → b < offset + byteSize cs → marked b = true) :
    blankOut marked offset cs = List.replicate (byteSize cs) ' ' := by
  induction cs generalizing offset with
  | nil => rfl
  | cons c cs ih =>
    have hpos := c.utf8Size_pos
    rw [byteSize_cons] at h
    rw [blankOut, h offset (Nat.le_refl _) (by omega),
      ih fun b hle hlt => h b (by omega) (by omega), if_pos rfl, byteSize_cons,
      List.replicate_append_replicate]

theorem byteSize_replicate_blank (n : Nat) : byteSize (List.replicate n ' ') = n := by
  induction n with
  | zero => rfl
  | succ n ih =>
    have hblank : ' '.utf8Size = 1 := rfl
    rw [List.replicate_succ, byteSize_cons, ih, hblank, Nat.add_comm]

/-- Every byte keeps its place. -/
theorem byteSize_blankOut : byteSize (blankOut marked offset cs) = byteSize cs := by
  induction cs generalizing offset with
  | nil => rfl
  | cons c cs ih =>
    rw [blankOut, byteSize_append, ih, byteSize_cons]
    split
    · rw [byteSize_replicate_blank]
    · simp

/-- Line feeds that are not marked stay the only ones. -/
theorem count_blankOut (hfeed : ∀ before after, cs = before ++ '\n' :: after →
      marked (offset + byteSize before) = false) :
    (blankOut marked offset cs).count '\n' = cs.count '\n' := by
  induction cs using List.reverseRecOn with
  | nil => rfl
  | append_singleton cs c ih =>
    have htail : ∀ before after, cs = before ++ '\n' :: after →
        marked (offset + byteSize before) = false := by
      rintro before after rfl
      exact hfeed before (after ++ [c]) (by simp)
    rw [blankOut_append, List.count_append, List.count_append, ih htail, blankOut]
    congr 1
    split
    · rename_i hmarked
      have hc : c ≠ '\n' := by
        rintro rfl
        rw [hfeed cs [] rfl] at hmarked
        cases hmarked
      simp [List.count_replicate, hc]
    · rfl

/-- If the characters that are marked in the last line have one byte each, it keeps its length. -/
theorem length_lastLine_blankOut (hfeed : ∀ before after, cs = before ++ '\n' :: after →
      marked (offset + byteSize before) = false)
    (hsingle : ∀ before c after, cs = before ++ c :: after → '\n' ∉ c :: after →
      marked (offset + byteSize before) = true → c.utf8Size = 1) :
    (lastLine (blankOut marked offset cs)).length = (lastLine cs).length := by
  induction cs using List.reverseRecOn with
  | nil => rfl
  | append_singleton cs c ih =>
    rw [blankOut_append, blankOut, blankOut_nil, List.append_nil]
    by_cases hc : c = '\n'
    · subst hc
      rw [hfeed cs [] rfl]
      simp
    · have hfeed' : ∀ before after, cs = before ++ '\n' :: after →
          marked (offset + byteSize before) = false := by
        rintro before after rfl
        exact hfeed before (after ++ [c]) (by simp)
      have hsingle' : ∀ before d after, cs = before ++ d :: after → '\n' ∉ d :: after →
          marked (offset + byteSize before) = true → d.utf8Size = 1 := by
        rintro before d after rfl hline
        refine hsingle before d (after ++ [c]) (by simp) ?_
        simpa [Ne.symm hc] using hline
      have hlength := ih hfeed' hsingle'
      split
      · rename_i hmarked
        rw [hsingle cs c [] rfl (by simpa using Ne.symm hc) hmarked, List.replicate_one,
          lastLine_concat (by decide), lastLine_concat hc, List.length_append, List.length_append,
          hlength]
        rfl
      · rw [lastLine_concat hc, lastLine_concat hc, List.length_append, List.length_append, hlength]

theorem utf8_eq_flatMap (source : String) :
    source.toUTF8.data = (source.toList.flatMap String.utf8EncodeChar).toArray := by
  have hbytes : source.toByteArray = source.toList.utf8Encode := by
    rw [← String.toByteArray_ofList, String.ofList_toList]
  rw [String.toUTF8_eq_toByteArray, hbytes, List.utf8Encode, List.data_toByteArray]

/-- Byte by byte, if the bytes of a character are marked together. -/
theorem utf8_blankOut (h : ∀ before c after, cs = before ++ c :: after → ∀ i < c.utf8Size,
      marked (offset + byteSize before + i) = marked (offset + byteSize before)) :
    (blankOut marked offset cs).flatMap String.utf8EncodeChar =
      (cs.flatMap String.utf8EncodeChar).mapIdx
        fun i byte => if marked (offset + i) then ' '.toUInt8 else byte := by
  induction cs generalizing offset with
  | nil => rfl
  | cons c cs ih =>
    have hhead : ∀ i < c.utf8Size, marked (offset + i) = marked offset := h [] c cs rfl
    have htail : ∀ before d after, cs = before ++ d :: after → ∀ i < d.utf8Size,
        marked (offset + c.utf8Size + byteSize before + i) =
          marked (offset + c.utf8Size + byteSize before) := by
      rintro before d after rfl
      simpa [Nat.add_assoc] using h (c :: before) d after rfl
    rw [blankOut, List.flatMap_append, ih htail, List.flatMap_cons, List.mapIdx_append,
      String.length_utf8EncodeChar]
    congr 1
    · split
      · rename_i hmarked
        have hblank : String.utf8EncodeChar ' ' = [' '.toUInt8] := by decide
        have hbytes : ∀ n, (List.replicate n ' ').flatMap String.utf8EncodeChar =
            List.replicate n ' '.toUInt8 := by
          intro n
          rw [List.flatMap_replicate, hblank]
          simp
        rw [hbytes, eq_comm, ← String.length_utf8EncodeChar, List.mapIdx_eq_replicate_iff]
        intro i hi
        rw [String.length_utf8EncodeChar] at hi
        rw [hhead i hi, if_pos hmarked]
      · rename_i hmarked
        rw [List.flatMap_singleton]
        refine List.ext_getElem (by simp) fun i hi _ => ?_
        rw [String.length_utf8EncodeChar] at hi
        rw [List.getElem_mapIdx, hhead i hi, if_neg hmarked]
    · simp only [Nat.add_assoc, Nat.add_comm c.utf8Size]

end

end TinyC.Text
