import TinyC.Proofs.Ir.Names
import TinyC.Token.Scanner

/-!
# Identifiers are words

Every identifier in the token stream is a word: letters, digits and underscores, and no digit in
front. So an identifier is a plain name.
-/

namespace TinyC

open Lexeme

/-- Letters, digits and underscores that do not start with a digit. -/
def IsWord (name : String) : Prop :=
  ∃ c cs, name.toList = c :: cs ∧ isWordStart c = true ∧ ∀ d ∈ cs, isWordChar d = true

theorem IsWord.plain {name : String} (h : IsWord name) : Ir.Plain name := by
  obtain ⟨c, cs, hname, hc, hcs⟩ := h
  have hne : c ≠ '.' := by
    rintro rfl
    exact absurd hc (by decide)
  refine ⟨by simpa [hname] using hne, ?_⟩
  intro d hd
  rw [hname] at hd
  apply Ir.isWhitespace_eq_false (p := isWordChar) (by decide)
  rcases List.mem_cons.mp hd with rfl | hd
  · simp [isWordChar, hc]
  · exact hcs d hd

namespace Lexeme

theorem float?_ne_ident {cs : List Char} {lexeme : Lexeme} (h : float? cs = some lexeme)
    (name : String) : lexeme.reading ≠ .token (.ident name) := by
  simp only [float?] at h
  split at h
  · split at h
    · cases h
    · split at h
      · cases h
        simp [float]
      · split at h
        · cases h
          simp
        · cases h
          simp [float]
  · split at h
    · cases h
    · obtain ⟨e, -, rfl⟩ := Option.map_eq_some_iff.mp h
      simp [float]

theorem integer_ne_ident (cs : List Char) (name : String) :
    (integer cs).reading ≠ .token (.ident name) := by
  rw [integer_reading]
  rcases integerReading_cases (integer cs).text with ⟨n, h⟩ | h
  · simp [h]
  · simp [h]

theorem single_ne_ident (c : Char) (cs : List Char) (name : String) :
    (single c cs).reading ≠ .token (.ident name) := by
  unfold single
  split <;> simp

theorem operator_ne_ident (c : Char) (cs : List Char) (name : String) :
    (operator c cs).reading ≠ .token (.ident name) := by
  unfold operator
  split
  · exact single_ne_ident c [] name
  · split
    · simp
    · split
      · simp
      · exact single_ne_ident c _ name

/-- Only a word is read as an identifier. -/
theorem isWord_of_ident {c : Char} {cs : List Char} {name : String}
    (h : (of c cs).reading = .token (.ident name)) : IsWord name := by
  unfold of at h
  split at h
  · cases h
  · split at h
    · rename_i hc
      simp only [Reading.token.injEq, Token.ofWord] at h
      split at h
      · cases h
      · cases h
        exact ⟨c, _, String.toList_ofList, hc, fun d hd => List.mem_takeWhile_imp hd⟩
    · split at h
      · cases h
      · split at h
        · exact absurd h (float?_ne_ident ‹_› name)
        · split at h
          · exact absurd h (integer_ne_ident _ name)
          · exact absurd h (operator_ne_ident _ _ name)

end Lexeme

namespace Scanner

theorem nextInString_ne_ident (start : Nat) (text : List Char) (offset : Nat) (cs : List Char)
    (name : String) : (nextInString start text offset cs).1.found ≠ .ok (.ident name) := by
  fun_induction nextInString start text offset cs with
  | case3 text offset rest ih => exact ih
  | case4 text offset rest ih => exact ih
  | case6 text offset c rest _ _ _ _ ih => exact ih
  | _ => simp

theorem nextNormal_isWord {offset : Nat} {cs : List Char} {finding : Finding} {name : String}
    (h : (nextNormal offset cs).1 = some finding) (hfound : finding.found = .ok (.ident name)) :
    IsWord name := by
  fun_induction nextNormal offset cs with
  | case1 => cases h
  | case2 offset c cs lexeme behind _ ih => exact ih h
  | case3 offset c cs lexeme behind _ finding' scanner hnext =>
    cases h
    have hne := nextInString_ne_ident offset [c] behind lexeme.rest name
    rw [hnext] at hne
    exact absurd hfound hne
  | case4 offset c cs lexeme behind t ht =>
    cases h
    cases hfound
    exact isWord_of_ident ht
  | case5 offset c cs lexeme behind f _ =>
    cases h
    cases hfound

theorem next_isWord {s : Scanner} {finding : Finding} {name : String}
    (h : s.next.1 = some finding) (hfound : finding.found = .ok (.ident name)) : IsWord name := by
  obtain ⟨mode, offset, rest⟩ := s
  cases mode with
  | normal => exact nextNormal_isWord h hfound
  | inString start text =>
    cases h
    exact absurd hfound (nextInString_ne_ident start text offset rest name)
  | finished => cases h

theorem findings_isWord {s : Scanner} {f : Finding × Scanner} {name : String}
    (h : f ∈ s.findings) (hfound : f.1.found = .ok (.ident name)) : IsWord name := by
  fun_induction findings s with
  | case1 => cases h
  | case2 s finding s' hnext ih =>
    rcases List.mem_cons.mp h with rfl | h
    · exact next_isWord (by rw [hnext]) hfound
    · exact ih h

end Scanner

theorem tokenize_isWord {source : String} {t : Spanned Token} {name : String}
    (h : .ok t ∈ tokenize source) (ht : t.value = .ident name) : IsWord name := by
  obtain ⟨f, hf, hitem⟩ := List.mem_map.mp h
  refine Scanner.findings_isWord hf ?_
  cases hfound : f.1.found with
  | error fault =>
    simp only [Finding.toItem, hfound] at hitem
    cases hitem
  | ok token =>
    simp only [Finding.toItem, hfound] at hitem
    cases hitem
    cases ht
    rfl

end TinyC
