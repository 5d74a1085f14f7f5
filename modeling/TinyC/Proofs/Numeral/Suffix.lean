import Mathlib
import TinyC.Token.Lexeme

/-!
# Suffixes of integer constants

The value of an integer constant is found by taking letters off its end. That takes off the suffix,
whichever it is, and nothing of what stands before it, provided that none of the letters of suffixes
are digits.
-/

namespace TinyC

/-- A suffix is made of letters and of a width, either of which may be missing. -/
theorem exists_letters_width {suffix : List Char} (h : suffix ∈ [] :: Lexeme.integerSuffixes) :
    ∃ letters : List Char, (∀ c ∈ letters, isSuffixLetter c = true) ∧
      ∃ width ∈ [[], "i64".toList, "I64".toList], suffix = letters ++ width := by
  have hall : ∀ suffix ∈ [] :: Lexeme.integerSuffixes,
      suffix.dropWhile isSuffixLetter ∈ [[], "i64".toList, "I64".toList] := by
    decide
  exact ⟨suffix.takeWhile isSuffixLetter, fun _ => List.mem_takeWhile_imp, _, hall suffix h,
    List.takeWhile_append_dropWhile.symm⟩

/-- Where no letter begins a width there is none. -/
theorem dropWidth_eq_self {cs : List Char} (h : ∀ c ∈ cs, c ≠ 'i' ∧ c ≠ 'I') :
    dropWidth cs = cs := by
  refine if_neg ?_
  rintro (hend | hend)
  · exact (h 'i' (hend.subset List.mem_cons_self)).1 rfl
  · exact (h 'I' (hend.subset List.mem_cons_self)).2 rfl

theorem dropWidth_append {cs width : List Char}
    (hwidth : width = "i64".toList ∨ width = "I64".toList) : dropWidth (cs ++ width) = cs := by
  have hend : "i64".toList <:+ cs ++ width ∨ "I64".toList <:+ cs ++ width := by
    rcases hwidth with rfl | rfl
    · exact .inl (List.suffix_append cs _)
    · exact .inr (List.suffix_append cs _)
  have hlength : width.length = 3 := by
    rcases hwidth with rfl | rfl <;> rfl
  rw [dropWidth, if_pos hend, List.length_append, hlength, Nat.add_sub_cancel, List.take_left]

/-- Letters are taken off from the end on, up to the last character that is none. -/
theorem dropLetters_append {body letters : List Char}
    (hbody : ∀ c ∈ body, isSuffixLetter c = false)
    (hletters : ∀ c ∈ letters, isSuffixLetter c = true) :
    ((body ++ letters).reverse.dropWhile isSuffixLetter).reverse = body := by
  have hlast : body.reverse.dropWhile isSuffixLetter = body.reverse := by
    cases hrev : body.reverse with
    | nil => rfl
    | cons c cs =>
      have hc : c ∈ body := List.mem_reverse.mp (hrev ▸ List.mem_cons_self)
      exact List.dropWhile_cons_of_neg (by simp [hbody c hc])
  rw [List.reverse_append, List.dropWhile_append_of_pos (by simpa using hletters), hlast,
    List.reverse_reverse]

/-- The character is no letter of a suffix. -/
def Kept (c : Char) : Prop := isSuffixLetter c = false ∧ c ≠ 'i' ∧ c ≠ 'I'

/-- A character of a class without letters of suffixes is none. -/
theorem Kept.of_class {p : Char → Bool} {c : Char} (hc : p c = true)
    (hp : ['u', 'U', 'l', 'L', 'i', 'I'].any p = false) : Kept c := by
  have hne : ∀ d ∈ ['u', 'U', 'l', 'L', 'i', 'I'], c ≠ d := by
    rintro d hd rfl
    exact List.any_eq_false.mp hp c hd hc
  simp only [List.forall_mem_cons] at hne
  obtain ⟨hu, hU, hl, hL, hi, hI, -⟩ := hne
  exact ⟨by simp [isSuffixLetter, hu, hU, hl, hL], hi, hI⟩

/-- What is taken off an integer constant is its suffix. -/
theorem dropSuffix_append {body suffix : List Char} (hbody : ∀ c ∈ body, Kept c)
    (hsuffix : suffix ∈ [] :: Lexeme.integerSuffixes) : dropSuffix (body ++ suffix) = body := by
  obtain ⟨letters, hletters, width, hwidth, rfl⟩ := exists_letters_width hsuffix
  have hmarked : dropWidth (body ++ (letters ++ width)) = body ++ letters := by
    rw [← List.append_assoc]
    rcases List.mem_cons.mp hwidth with rfl | hwidth
    · rw [List.append_nil]
      refine dropWidth_eq_self fun c hc => ?_
      rcases List.mem_append.mp hc with hc | hc
      · exact (hbody c hc).2
      · have hletter := hletters c hc
        constructor <;> rintro rfl <;> cases hletter
    · exact dropWidth_append (by simpa using hwidth)
  rw [dropSuffix, hmarked]
  exact dropLetters_append (fun c hc => (hbody c hc).1) hletters

end TinyC
