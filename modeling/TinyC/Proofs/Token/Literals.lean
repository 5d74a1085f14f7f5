import TinyC.Proofs.Token.Coverage

/-!
# String literals

A string literal ends at the first quote with an even number of backslashes right before it, since
these are pairs. On the way to it the scanner reports line feeds and backslashes that are not part
of a pair, and stays in the literal. If there is no such quote, the literal is reported at last.
-/

namespace TinyC

open Text

/-- What is found where a lexeme is read so. -/
def Reading.found? : Reading → Option (Except LexicalFault Token)
  | .token t => some (.ok t)
  | .fault f => some (.error f)
  | .gap | .quote => none

theorem Reading.token_or_fault {reading : Reading} {found : Except LexicalFault Token}
    (h : reading.found? = some found) :
    (∃ t, reading = .token t ∧ found = .ok t) ∨ ∃ f, reading = .fault f ∧ found = .error f := by
  cases reading with
  | gap | quote => cases h
  | token t => exact .inl ⟨t, rfl, (Option.some.inj h).symm⟩
  | fault f => exact .inr ⟨f, rfl, (Option.some.inj h).symm⟩

/-! ## Gaps -/

namespace Scanner

/-- Blanks can be passed over one by one. -/
theorem findings_blank {c : Char} (hc : Lexeme.isGap c = true) (offset : Nat) (cs : List Char) :
    findings ⟨.normal, offset, c :: cs⟩ = findings ⟨.normal, offset + c.utf8Size, cs⟩ := by
  have hof : ∀ d ds, Lexeme.isGap d = true →
      Lexeme.of d ds = ⟨.gap, d :: ds.takeWhile Lexeme.isGap, ds.dropWhile Lexeme.isGap⟩ := by
    intro d ds hd
    simp [Lexeme.of, hd]
  refine findings_congr ?_
  simp only [next]
  rw [nextNormal, hof c cs hc]
  cases cs with
  | nil => simp
  | cons d ds =>
    cases hd : Lexeme.isGap d with
    | true =>
      rw [nextNormal, hof d ds hd]
      simp [hd, Nat.add_assoc]
    | false => simp [hd]

/-- A comment goes up to the end of its line. -/
theorem findings_comment {body : List Char} (hbody : '\n' ∉ body) {cs : List Char}
    (hcs : ∀ c ∈ cs.head?, c = '\n') (offset : Nat) :
    findings ⟨.normal, offset, '/' :: '/' :: (body ++ cs)⟩ =
      findings ⟨.normal, offset + byteSize ('/' :: '/' :: body), cs⟩ := by
  have hin : ∀ c ∈ body, decide (c ≠ '\n') = true := by
    rintro c hc
    refine decide_eq_true ?_
    rintro rfl
    exact hbody hc
  have hend : cs.takeWhile (· ≠ '\n') = [] ∧ cs.dropWhile (· ≠ '\n') = cs := by
    cases cs with
    | nil => simp
    | cons c cs =>
      obtain rfl : c = '\n' := hcs c rfl
      simp
  have hof : Lexeme.of '/' ('/' :: (body ++ cs)) = ⟨.gap, '/' :: '/' :: body, cs⟩ := by
    have hshape : Lexeme.of '/' ('/' :: (body ++ cs)) = ⟨.gap,
        '/' :: '/' :: (body ++ cs).takeWhile (· ≠ '\n'), (body ++ cs).dropWhile (· ≠ '\n')⟩ := rfl
    rw [hshape, List.takeWhile_append_of_pos hin, List.dropWhile_append_of_pos hin, hend.1, hend.2,
      List.append_nil]
  refine findings_congr ?_
  simp only [next]
  rw [nextNormal, hof]

/-- What stands behind a gap is found as if the gap were not there. -/
theorem findings_gap {gap rest : List Char} (h : Gap rest gap) (offset : Nat) :
    findings ⟨.normal, offset, gap ++ rest⟩ = findings ⟨.normal, offset + byteSize gap, rest⟩ := by
  induction h generalizing offset with
  | nil => rfl
  | @blank c cs hc _ ih =>
    have hgap : Lexeme.isGap c = true := by simpa [Lexeme.isGap, or_assoc] using hc
    rw [List.cons_append, findings_blank hgap, ih, byteSize_cons, Nat.add_assoc]
  | @comment body cs hbody hend _ ih =>
    have hshape : '/' :: '/' :: (body ++ cs) ++ rest = '/' :: '/' :: (body ++ (cs ++ rest)) := by
      simp
    rw [hshape, findings_comment hbody hend, ih, ← List.cons_append, ← List.cons_append,
      byteSize_append, Nat.add_assoc]

end Scanner

/-! ## Quotes and backslashes -/

/-- The number of backslashes at the end of a text. -/
def backslashes (cs : List Char) : Nat := (cs.reverse.takeWhile (· = '\\')).length

theorem backslashes_concat (cs : List Char) : backslashes (cs ++ ['\\']) = backslashes cs + 1 := by
  simp [backslashes]

theorem backslashes_concat_of_ne {c : Char} (hc : c ≠ '\\') (cs : List Char) :
    backslashes (cs ++ [c]) = 0 := by
  simp [backslashes, hc]

/-- The quote ends the literal: what stands before it are pairs of backslashes. The text is what
follows the quote that opens the literal. -/
def Closes (text : List Char) (i : Nat) : Prop :=
  text[i]? = some '"' ∧ Even (backslashes (text.take i))

/-- The character is a line feed, or a backslash that is the first of no pair and the second of
none. -/
def Stray (text : List Char) (i : Nat) : Prop :=
  text[i]? = some '\n' ∨
    text[i]? = some '\\' ∧ Even (backslashes (text.take i)) ∧
      text[i + 1]? ≠ some '"' ∧ text[i + 1]? ≠ some '\\'

instance (text : List Char) (i : Nat) : Decidable (Closes text i) :=
  inferInstanceAs (Decidable (_ ∧ _))

instance (text : List Char) (i : Nat) : Decidable (Stray text i) :=
  inferInstanceAs (Decidable (_ ∨ _))

/-- The first quote that ends the literal is at an index. -/
def FirstCloses (text : List Char) (n : Nat) : Prop := Closes text n ∧ ∀ i < n, ¬Closes text i

theorem firstCloses_or_none (text : List Char) :
    (∃ n, FirstCloses text n) ∨ ∀ i, ¬Closes text i := by
  by_cases h : ∃ n, Closes text n
  · exact .inl ⟨Nat.find h, Nat.find_spec h, fun _ => Nat.find_min h⟩
  · exact .inr (not_exists.mp h)

/-- No pair begins before the character and ends behind it, or the character would end none. -/
def Aligned (text : List Char) (i : Nat) : Prop :=
  Even (backslashes (text.take i)) ∨ text[i]? ≠ some '"' ∧ text[i]? ≠ some '\\'

section

variable {text : List Char} {i : Nat} {c : Char}

theorem take_concat (h : text[i]? = some c) : text.take (i + 1) = text.take i ++ [c] := by
  rw [List.take_add_one, h, Option.toList_some]

theorem drop_cons (h : text[i]? = some c) : text.drop i = c :: text.drop (i + 1) := by
  obtain ⟨hi, rfl⟩ := List.getElem?_eq_some_iff.mp h
  exact List.drop_eq_getElem_cons hi

theorem getElem?_of_drop {rest : List Char} (h : text.drop i = c :: rest) : text[i]? = some c := by
  rw [← List.head?_drop, h, List.head?_cons]

theorem aligned_of_ne (h : text[i]? = some c) (hc : c ≠ '\\') : Aligned text (i + 1) := by
  refine .inl ?_
  rw [take_concat h, backslashes_concat_of_ne hc]
  exact Even.zero

end

/-! ## Inside a literal -/

namespace Scanner

/-- The scanner inside the literal that opens at byte `a`, with `i` characters of it read behind the
quote. -/
def inLiteral (a : Nat) (text : List Char) (i : Nat) : Scanner :=
  ⟨.inString a ('"' :: text.take i).reverse, a + byteSize ('"' :: text.take i), text.drop i⟩

/-- A character of the literal that is reported. -/
def strayAt (a : Nat) (text : List Char) (i : Nat) : Finding × Scanner :=
  (⟨a + byteSize ('"' :: text.take i), text[i]?.toList, .error .unexpectedCharacter⟩,
    inLiteral a text (i + 1))

/-- The literal that ends with the quote at an index. -/
def closedAt (a : Nat) (text : List Char) (i : Nat) : Finding × Scanner :=
  (⟨a, '"' :: text.take (i + 1), .ok (.str (String.ofList ('"' :: text.take (i + 1))))⟩,
    ⟨.normal, a + byteSize ('"' :: text.take (i + 1)), text.drop (i + 1)⟩)

/-- The literal without an end. -/
def unclosed (a : Nat) (text : List Char) : Finding × Scanner :=
  (⟨a, '"' :: text, .error .unterminatedString⟩, ⟨.finished, a + byteSize ('"' :: text), []⟩)

section

variable {a : Nat} {text : List Char} {i : Nat} {c d : Char}

theorem next_plain (h : text[i]? = some c) (hquote : c ≠ '"') (hbackslash : c ≠ '\\')
    (hfeed : c ≠ '\n') : (inLiteral a text i).next = (inLiteral a text (i + 1)).next := by
  simp only [next, inLiteral]
  rw [drop_cons h, nextInString, take_concat h]
  all_goals simp [hquote, hbackslash, hfeed, Nat.add_assoc]

theorem next_escape (h : text[i]? = some '\\') (hd : text[i + 1]? = some d)
    (hpair : d = '"' ∨ d = '\\') : (inLiteral a text i).next = (inLiteral a text (i + 2)).next := by
  have hquote : '"'.utf8Size = 1 := rfl
  have hbackslash : '\\'.utf8Size = 1 := rfl
  simp only [next, inLiteral]
  rw [drop_cons h, drop_cons hd, take_concat hd, take_concat h]
  rcases hpair with rfl | rfl
  · simp [nextInString, hquote, hbackslash, Nat.add_assoc]
  · simp [nextInString, hquote, hbackslash, Nat.add_assoc]

theorem next_stray (h : Stray text i) :
    (inLiteral a text i).next = (some (strayAt a text i).1, (strayAt a text i).2) := by
  rcases h with h | ⟨h, -, hquote, hbackslash⟩
  · simp only [next, inLiteral, strayAt]
    rw [drop_cons h, nextInString, take_concat h, h]
    all_goals simp [Nat.add_assoc]
  · simp only [next, inLiteral, strayAt]
    rw [drop_cons h, nextInString, take_concat h, h]
    · simp [Nat.add_assoc]
    · simp
    · exact fun rest _ hrest => hquote (getElem?_of_drop hrest)
    · exact fun rest _ hrest => hbackslash (getElem?_of_drop hrest)

theorem next_close (h : text[i]? = some '"') :
    (inLiteral a text i).next = (some (closedAt a text i).1, (closedAt a text i).2) := by
  have hquote : '"'.utf8Size = 1 := rfl
  simp only [next, inLiteral, closedAt]
  rw [drop_cons h, nextInString, take_concat h]
  simp [hquote, Nat.add_assoc]

theorem next_unclosed :
    (inLiteral a text text.length).next = (some (unclosed a text).1, (unclosed a text).2) := by
  simp [next, inLiteral, unclosed, nextInString]

end

/-- What is found of a literal from an index on: characters that are reported, up to the first quote
that ends the literal, and then the literal. -/
def literal (a : Nat) (text : List Char) (i : Nat) : List (Finding × Scanner) :=
  match (List.range' i (text.length - i)).find? (Closes text ·) with
  | some n => ((List.range' i (n - i)).filter (Stray text ·)).map (strayAt a text) ++
      closedAt a text n :: (closedAt a text n).2.findings
  | none => ((List.range' i (text.length - i)).filter (Stray text ·)).map (strayAt a text) ++
      [unclosed a text]

section

variable {a : Nat} {text : List Char} {i : Nat}

theorem literal_length : literal a text text.length = [unclosed a text] := by
  simp [literal]

theorem literal_closes (h : Closes text i) :
    literal a text i = closedAt a text i :: (closedAt a text i).2.findings := by
  obtain ⟨k, hk⟩ : ∃ k, text.length - i = k + 1 := by
    obtain ⟨hi, -⟩ := List.getElem?_eq_some_iff.mp h.1
    exact ⟨text.length - i - 1, by omega⟩
  simp [literal, hk, List.range'_succ, h]

/-- Characters that do not end the literal are reported or passed over. -/
theorem literal_not_closes (hi : i < text.length) (h : ¬Closes text i) :
    literal a text i =
      (if Stray text i then [strayAt a text i] else []) ++ literal a text (i + 1) := by
  obtain ⟨k, hk⟩ : ∃ k, text.length - i = k + 1 := ⟨text.length - i - 1, by omega⟩
  have hk' : text.length - (i + 1) = k := by omega
  have hfind : (List.range' i (k + 1)).find? (Closes text ·) =
      (List.range' (i + 1) k).find? (Closes text ·) := by
    rw [List.range'_succ, List.find?_cons_of_neg (by simpa using h)]
  have hfilter : ∀ m, ((List.range' i (m + 1)).filter (Stray text ·)).map (strayAt a text) =
      (if Stray text i then [strayAt a text i] else []) ++
        ((List.range' (i + 1) m).filter (Stray text ·)).map (strayAt a text) := by
    intro m
    rw [List.range'_succ, List.filter_cons]
    split <;> simp_all
  unfold literal
  rw [hk, hk', hfind]
  cases hclose : (List.range' (i + 1) k).find? (Closes text ·) with
  | none =>
    dsimp only
    rw [hfilter, List.append_assoc]
  | some n =>
    obtain ⟨-, hn, -⟩ := List.find?_range'_eq_some.mp hclose
    obtain ⟨m, hm⟩ : ∃ m, n - i = m + 1 := by
      rw [List.mem_range'_1] at hn
      exact ⟨n - i - 1, by omega⟩
    have hm' : n - (i + 1) = m := by omega
    dsimp only
    rw [hm, hm', hfilter, List.append_assoc]

theorem literal_stray (h : Stray text i) :
    literal a text i = strayAt a text i :: literal a text (i + 1) := by
  have hi : i < text.length := by
    rcases h with h | ⟨h, -⟩
    · exact (List.getElem?_eq_some_iff.mp h).1
    · exact (List.getElem?_eq_some_iff.mp h).1
  have hclose : ¬Closes text i := by
    rintro ⟨hquote, -⟩
    simp [Stray, hquote] at h
  rw [literal_not_closes hi hclose, if_pos h, List.singleton_append]

theorem literal_skip {c : Char} (hc : text[i]? = some c) (hclose : ¬Closes text i)
    (hstray : ¬Stray text i) : literal a text i = literal a text (i + 1) := by
  have hi := (List.getElem?_eq_some_iff.mp hc).1
  rw [literal_not_closes hi hclose, if_neg hstray, List.nil_append]

/-- The two characters of a pair are passed over. -/
theorem literal_escape (h : text[i]? = some '\\') (heven : Even (backslashes (text.take i)))
    {d : Char} (hd : text[i + 1]? = some d) (hpair : d = '"' ∨ d = '\\') :
    literal a text i = literal a text (i + 2) ∧ Aligned text (i + 2) := by
  have hodd : ¬Even (backslashes (text.take (i + 1))) := by
    rwa [take_concat h, backslashes_concat, Nat.even_add_one, not_not]
  refine ⟨?_, ?_⟩
  · rw [literal_skip h, literal_skip hd]
    · exact fun hclose => hodd hclose.2
    · rcases hpair with rfl | rfl
      · simp [Stray, hd]
      · simp [Stray, hd, hodd]
    · simp [Closes, h]
    · rcases hpair with rfl | rfl
      · simp [Stray, h, hd]
      · simp [Stray, h, hd]
  · rcases hpair with rfl | rfl
    · exact aligned_of_ne hd (by decide)
    · refine .inl ?_
      rwa [take_concat hd, backslashes_concat, Nat.even_add_one]

/-- A scan inside a literal finds what the quotes and backslashes of the text say. -/
theorem findings_inLiteral (hi : i ≤ text.length) (h : Aligned text i) :
    (inLiteral a text i).findings = literal a text i := by
  -- The scanner never stands between the characters of a pair, so what it does with a character is
  -- decided by the parity of the backslashes before it.
  induction hn : text.length - i using Nat.strong_induction_on generalizing i with
  | _ n ih =>
    subst hn
    cases hc : text[i]? with
    | none =>
      obtain rfl : i = text.length := Nat.le_antisymm hi (List.getElem?_eq_none_iff.mp hc)
      rw [findings_of_next next_unclosed, literal_length, findings_of_finished rfl]
    | some c =>
      have hlt := (List.getElem?_eq_some_iff.mp hc).1
      by_cases hquote : c = '"'
      · subst hquote
        have hclose : Closes text i := ⟨hc, h.resolve_right fun hne => hne.1 hc⟩
        rw [findings_of_next (next_close hc), literal_closes hclose]
      · have hclose : ¬Closes text i := by simp [Closes, hc, hquote]
        by_cases hstray : Stray text i
        · have haligned : Aligned text (i + 1) := by
            rcases hstray with hfeed | ⟨-, -, hnext⟩
            · exact aligned_of_ne hfeed (by decide)
            · exact .inr hnext
          rw [findings_of_next (next_stray hstray), literal_stray hstray]
          exact congrArg _ (ih _ (by omega) hlt haligned rfl)
        · by_cases hbackslash : c = '\\'
          · subst hbackslash
            have heven := h.resolve_right fun hne => hne.2 hc
            obtain ⟨d, hd, hpair⟩ : ∃ d, text[i + 1]? = some d ∧ (d = '"' ∨ d = '\\') := by
              by_contra hnone
              refine hstray (.inr ⟨hc, heven, ?_, ?_⟩)
              · exact fun hd => hnone ⟨_, hd, .inl rfl⟩
              · exact fun hd => hnone ⟨_, hd, .inr rfl⟩
            obtain ⟨hskip, haligned⟩ := literal_escape (a := a) hc heven hd hpair
            have hlt' := (List.getElem?_eq_some_iff.mp hd).1
            rw [findings_congr (next_escape hc hd hpair), hskip]
            exact ih _ (by omega) hlt' haligned rfl
          · have hfeed : c ≠ '\n' := fun hfeed => hstray (.inl (hfeed ▸ hc))
            rw [findings_congr (next_plain hc hquote hbackslash hfeed),
              literal_skip hc hclose hstray]
            exact ih _ (by omega) hlt (aligned_of_ne hc hbackslash) rfl

/-- The scan of a literal from its quote on. -/
theorem findings_quote (a : Nat) (text : List Char) :
    findings ⟨.normal, a, '"' :: text⟩ = literal a text 0 := by
  have hopen : (⟨.normal, a, '"' :: text⟩ : Scanner).next = (inLiteral a text 0).next := by
    have hof : Lexeme.of '"' text = ⟨.quote, ['"'], text⟩ := rfl
    simp only [next]
    rw [nextNormal, hof]
    rfl
  rw [findings_congr hopen]
  exact findings_inLiteral (Nat.zero_le _) (.inl Even.zero)

/-- The characters that are reported of the first ones of a literal. -/
def strays (a : Nat) (text : List Char) (n : Nat) : List (Finding × Scanner) :=
  ((List.range n).filter (Stray text ·)).map (strayAt a text)

theorem findings_closed {n : Nat} (h : FirstCloses text n) :
    findings ⟨.normal, a, '"' :: text⟩ =
      strays a text n ++ closedAt a text n :: (closedAt a text n).2.findings := by
  have hlt := (List.getElem?_eq_some_iff.mp h.1.1).1
  have hfind : (List.range' 0 (text.length - 0)).find? (Closes text ·) = some n := by
    refine List.find?_range'_eq_some.mpr ⟨decide_eq_true h.1, ?_, fun i _ hi => ?_⟩
    · rw [List.mem_range'_1]
      omega
    · simpa using h.2 i hi
  rw [findings_quote, literal, hfind, strays, List.range_eq_range']
  rfl

theorem findings_unclosed (h : ∀ i, ¬Closes text i) :
    findings ⟨.normal, a, '"' :: text⟩ = strays a text text.length ++ [unclosed a text] := by
  have hfind : (List.range' 0 (text.length - 0)).find? (Closes text ·) = none :=
    List.find?_range'_eq_none.mpr fun i _ _ => by simpa using h i
  rw [findings_quote, literal, hfind, strays, List.range_eq_range']
  rfl

end

/-! ## Outside literals -/

theorem findings_nil (offset : Nat) : findings ⟨.normal, offset, []⟩ = [] := by
  have hnext : (⟨.normal, offset, []⟩ : Scanner).next = (none, ⟨.finished, offset, []⟩) := by
    simp [next, nextNormal]
  exact findings_of_next_none hnext

/-- A lexeme that is found. -/
theorem findings_lexeme {c : Char} {cs : List Char} {found : Except LexicalFault Token}
    (h : (Lexeme.of c cs).reading.found? = some found) (offset : Nat) :
    findings ⟨.normal, offset, c :: cs⟩ =
      (⟨offset, (Lexeme.of c cs).text, found⟩,
        ⟨.normal, offset + byteSize (Lexeme.of c cs).text, (Lexeme.of c cs).rest⟩) ::
      findings ⟨.normal, offset + byteSize (Lexeme.of c cs).text, (Lexeme.of c cs).rest⟩ := by
  refine findings_of_next ?_
  simp only [next]
  rw [nextNormal]
  rcases Reading.token_or_fault h with ⟨t, hreading, rfl⟩ | ⟨f, hreading, rfl⟩
  · rw [hreading]
  · rw [hreading]

/-- What holds at the end, and is carried back over gaps, lexemes and literals, holds of every text
outside literals. -/
theorem normal_induct {P : Nat → List Char → Prop} (nil : ∀ offset, P offset [])
    (gap : ∀ {offset gap rest}, Gap rest gap → P (offset + byteSize gap) rest →
      P offset (gap ++ rest))
    (lexeme : ∀ {offset c cs found}, (Lexeme.of c cs).reading.found? = some found →
      P (offset + byteSize (Lexeme.of c cs).text) (Lexeme.of c cs).rest → P offset (c :: cs))
    (closed : ∀ {offset text n}, FirstCloses text n →
      P (offset + byteSize ('"' :: text.take (n + 1))) (text.drop (n + 1)) →
      P offset ('"' :: text))
    (unclosed : ∀ {offset text}, (∀ i, ¬Closes text i) → P offset ('"' :: text))
    (offset : Nat) (cs : List Char) : P offset cs := by
  induction hn : cs.length using Nat.strong_induction_on generalizing offset cs with
  | _ n ih =>
    subst hn
    cases cs with
    | nil => exact nil offset
    | cons c cs =>
      have hlength := Lexeme.length_rest_of_lt c cs
      have hsplit := (Lexeme.of_splits c cs).append
      have hfaithful := Lexeme.of_faithful c cs
      cases hreading : (Lexeme.of c cs).reading with
      | gap =>
        rw [← hsplit]
        exact gap (hfaithful.gap hreading) (ih _ hlength _ _ rfl)
      | quote =>
        obtain ⟨rfl, -⟩ : '"' = c ∧ (Lexeme.of c cs).rest = cs := by
          simpa [hfaithful.quote hreading] using hsplit
        rcases firstCloses_or_none cs with ⟨n, hfirst⟩ | hnone
        · refine closed hfirst (ih _ ?_ _ _ rfl)
          rw [List.length_drop, List.length_cons]
          omega
        · exact unclosed hnone
      | token t => exact lexeme (by rw [hreading]; rfl) (ih _ hlength _ _ rfl)
      | fault f => exact lexeme (by rw [hreading]; rfl) (ih _ hlength _ _ rfl)

end Scanner

/-! ## Quotes that are reached -/

/-- The scanner behind the first findings of a source. -/
def scannerBehind (source : String) (items : List (Finding × Scanner)) : Scanner :=
  (items.getLast?.map (·.2)).getD (.start source.toList)

/-- The scan of a source has found `items` and comes, outside of literals, to the byte `offset` with
`text` ahead. -/
structure Comes (source : String) (items : List (Finding × Scanner)) (offset : Nat)
    (text : List Char) : Prop where
  found : items <+: scan source
  place : ∃ before gap, scannerBehind source items = ⟨.normal, before, gap ++ text⟩ ∧ Gap text gap ∧
    offset = before + byteSize gap

/-- The findings behind the first ones are those of the scanner behind them, which stands in the
source. -/
theorem scannerBehind_spec {source : String} {items : List (Finding × Scanner)}
    (h : items <+: scan source) :
    scan source = items ++ (scannerBehind source items).findings ∧
      (scannerBehind source items).Within source.toList := by
  obtain ⟨rest, hrest⟩ := h
  rcases List.eq_nil_or_concat items with rfl | ⟨items, ⟨f, s⟩, rfl⟩
  · exact ⟨rfl, Scanner.within_start _⟩
  · rw [List.concat_eq_append, List.append_assoc] at hrest
    obtain ⟨rfl, s₀, -, hwithin, hstep⟩ := Scanner.findings_split (Scanner.wellFormed_start _)
      (Scanner.within_start _) hrest.symm
    have hbehind : scannerBehind source (items.concat (f, s)) = s := by simp [scannerBehind]
    rw [hbehind, ← hrest, List.concat_eq_append, List.append_assoc]
    exact ⟨rfl, hstep.within hwithin⟩

namespace Comes

variable {source : String} {items : List (Finding × Scanner)} {offset : Nat} {text : List Char}

theorem start (source : String) : Comes source [] 0 source.toList :=
  ⟨List.nil_prefix, 0, [], rfl, .nil, rfl⟩

theorem scan_eq (h : Comes source items offset text) :
    scan source = items ++ Scanner.findings ⟨.normal, offset, text⟩ := by
  obtain ⟨before, gap, hbehind, hgap, rfl⟩ := h.place
  rw [(scannerBehind_spec h.found).1, hbehind, Scanner.findings_gap hgap]

theorem skip {gap rest : List Char} (h : Comes source items offset (gap ++ rest))
    (hgap : Gap rest gap) : Comes source items (offset + byteSize gap) rest := by
  obtain ⟨before, gap', hbehind, hgap', rfl⟩ := h.place
  refine ⟨h.found, before, gap' ++ gap, ?_, hgap'.append hgap, ?_⟩
  · rw [hbehind, List.append_assoc]
  · rw [byteSize_append, Nat.add_assoc]

/-- The scan goes on behind a finding that leaves it outside of literals. -/
theorem step (h : Comes source items offset text) {more : List (Finding × Scanner)} {f : Finding}
    {offset' : Nat} {rest : List Char} {post : List (Finding × Scanner)}
    (hfindings : Scanner.findings ⟨.normal, offset, text⟩ =
      more ++ (f, ⟨.normal, offset', rest⟩) :: post) :
    Comes source (items ++ more ++ [(f, ⟨.normal, offset', rest⟩)]) offset' rest where
  found := ⟨post, by rw [h.scan_eq, hfindings]; simp⟩
  place := ⟨offset', [], by simp [scannerBehind], .nil, rfl⟩

theorem within (h : Comes source items offset text) :
    ∃ before, source.toList = before ++ text ∧ offset = byteSize before := by
  obtain ⟨start, gap, hbehind, -, rfl⟩ := h.place
  obtain ⟨before, hsource, hstart⟩ := (scannerBehind_spec h.found).2
  rw [hbehind, Scanner.ahead_normal] at hsource
  rw [hbehind, Scanner.base_normal] at hstart
  exact ⟨before ++ gap, by rw [hsource, List.append_assoc], by rw [hstart, byteSize_append]⟩

end Comes

/-- The finding is part of a literal whose quote is reached: a character of it that is reported, or
the whole of it if it has no end. -/
def FromLiteral (source : String) (x : Finding × Scanner) : Prop :=
  ∃ items a text, Comes source items a ('"' :: text) ∧
    ((∃ i, Stray text i ∧ (∀ j ≤ i, ¬Closes text j) ∧ x = Scanner.strayAt a text i) ∨
      (∀ i, ¬Closes text i) ∧ x = Scanner.unclosed a text)

theorem fromLiteral_of_mem_strays {source : String} {items : List (Finding × Scanner)} {a n : Nat}
    {text : List Char} (h : Comes source items a ('"' :: text)) (hn : ∀ i < n, ¬Closes text i)
    {x : Finding × Scanner} (hx : x ∈ Scanner.strays a text n) : FromLiteral source x := by
  obtain ⟨i, hi, rfl⟩ := List.mem_map.mp hx
  obtain ⟨hlt, hstray⟩ := List.mem_filter.mp hi
  rw [List.mem_range] at hlt
  exact ⟨items, a, text, h, .inl ⟨i, of_decide_eq_true hstray, fun j hj => hn j (by omega), rfl⟩⟩

/-- A finding that leaves the scanner in a literal or at the end is part of a literal. -/
theorem Comes.fromLiteral {source : String} {items : List (Finding × Scanner)} {offset : Nat}
    {text : List Char} (h : Comes source items offset text) {x : Finding × Scanner}
    (hx : x ∈ Scanner.findings ⟨.normal, offset, text⟩) (hmode : x.2.mode ≠ .normal) :
    FromLiteral source x := by
  refine Scanner.normal_induct (P := fun offset text => ∀ items, Comes source items offset text →
    x ∈ Scanner.findings ⟨.normal, offset, text⟩ → FromLiteral source x) ?_ ?_ ?_ ?_ ?_
    offset text items h hx
  · intro offset items _ hx
    rw [Scanner.findings_nil] at hx
    cases hx
  · intro offset gap rest hgap ih items h hx
    rw [Scanner.findings_gap hgap] at hx
    exact ih items (h.skip hgap) hx
  · intro offset c cs found hfound ih items h hx
    have hfindings := Scanner.findings_lexeme hfound offset
    rw [hfindings] at hx
    rcases List.mem_cons.mp hx with rfl | hx
    · exact absurd rfl hmode
    · exact ih _ (h.step (hfindings.trans (List.nil_append _).symm)) hx
  · intro offset text n hfirst ih items h hx
    have hfindings := Scanner.findings_closed (a := offset) hfirst
    rw [hfindings] at hx
    rcases List.mem_append.mp hx with hx | hx
    · exact fromLiteral_of_mem_strays h hfirst.2 hx
    · rcases List.mem_cons.mp hx with rfl | hx
      · exact absurd rfl hmode
      · exact ih _ (h.step hfindings) hx
  · intro offset text hnone items h hx
    rw [Scanner.findings_unclosed hnone] at hx
    rcases List.mem_append.mp hx with hx | hx
    · exact fromLiteral_of_mem_strays h (fun i _ => hnone i) hx
    · rw [List.mem_singleton] at hx
      exact ⟨items, offset, text, h, .inr ⟨hnone, hx⟩⟩

/-! ## What a caller sees -/

/-- The item for a finding, and whether the scanner is in a literal behind it. -/
def seen (source : String) (x : Finding × Scanner) : Item × Bool :=
  (x.1.toItem source.toList, x.2.mode.isInString)

/-- The items of a source, each with the state of the scanner behind it. -/
def observed (source : String) : List (Item × Bool) := (scan source).map (seen source)

theorem map_fst_observed (source : String) : (observed source).map (·.1) = tokenize source := by
  rw [observed, List.map_map, tokenize_eq_map_scan]
  rfl

/-- The report of a character in the literal that opens at byte `a`. -/
def strayItem (source : String) (a : Nat) (text : List Char) (i : Nat) : Item :=
  .error (.report source.toList .unexpectedCharacter (a + byteSize ('"' :: text.take i))
    text[i]?.toList)

theorem Scanner.mode_behind {s : Scanner} (hs : s.WellFormed) {n : Nat}
    (hn : s.findings.length < n) : (s.behind n).mode = .finished := by
  fun_induction findings s generalizing n with
  | case1 s s' hnext =>
    obtain ⟨n, rfl⟩ := Nat.exists_eq_succ_of_ne_zero (Nat.ne_zero_of_lt hn)
    have hend := (next_none hs hnext).2.2
    have hstays : s'.behind n = s' := Function.iterate_fixed (by rw [next_of_finished hend]) n
    have hbehind : s.behind (n + 1) = s.next.2.behind n := rfl
    rw [hbehind, hnext, hstays, hend]
  | case2 s f s' hnext ih =>
    obtain ⟨n, rfl⟩ := Nat.exists_eq_succ_of_ne_zero (Nat.ne_zero_of_lt hn)
    have hbehind : s.behind (n + 1) = s.next.2.behind n := rfl
    rw [hbehind, hnext]
    exact ih ((next_step hs hnext).wellFormed hs) (Nat.lt_of_succ_lt_succ hn)

/-- How the literals of a source are read. -/
structure ReadsLiterals (source : String) : Prop where
  /-- What is observed are the items. -/
  items : (observed source).map (·.1) = tokenize source
  /-- What is ahead of the scanner is the source from there on. -/
  places : ∀ items a text, Comes source items a text →
    ∃ before, source.toList = before ++ text ∧ a = byteSize before
  /-- A literal goes up to the first quote that ends it. Stray characters in it are reported before,
  with the scanner still inside, and the scan goes on behind the quote. -/
  closed : ∀ items a text n, Comes source items a ('"' :: text) → FirstCloses text n →
    observed source = items.map (seen source) ++
      (((List.range n).filter (Stray text ·)).map (fun i => (strayItem source a text i, true)) ++
        (.ok ⟨a, .str (String.ofList ('"' :: text.take (n + 1))),
          a + byteSize ('"' :: text.take (n + 1))⟩, false) ::
        (Scanner.findings ⟨.normal, a + byteSize ('"' :: text.take (n + 1)),
          text.drop (n + 1)⟩).map (seen source))
  /-- A literal without an end is reported behind its stray characters, and is the last item. -/
  unclosed : ∀ items a text, Comes source items a ('"' :: text) → (∀ i, ¬Closes text i) →
    observed source = items.map (seen source) ++
      (((List.range text.length).filter (Stray text ·)).map
          (fun i => (strayItem source a text i, true)) ++
        [(.error (.report source.toList .unterminatedString a ('"' :: text)), false)])
  /-- Nothing else is reported as a literal without an end. -/
  unterminated : ∀ pre e post, tokenize source = pre ++ .error e :: post →
    e.fault = .unterminatedString → post = [] ∧ ∃ items a text,
      Comes source items a ('"' :: text) ∧ (∀ i, ¬Closes text i) ∧
      e = .report source.toList .unterminatedString a ('"' :: text)
  /-- The scanner is inside a literal only behind stray characters. -/
  inside : ∀ item, (item, true) ∈ observed source → ∃ items a text i,
    Comes source items a ('"' :: text) ∧ Stray text i ∧ (∀ j ≤ i, ¬Closes text j) ∧
    item = strayItem source a text i
  /-- At the end it is inside none. -/
  ended : ∀ n, (tokenize source).length < n →
    ((Scanner.start source.toList).behind n).mode.isInString = false

theorem readsLiterals (source : String) : ReadsLiterals source where
  items := map_fst_observed source
  places _ _ _ h := h.within
  closed items a text n h hfirst := by
    rw [observed, h.scan_eq, Scanner.findings_closed hfirst, List.map_append, List.map_append,
      Scanner.strays, List.map_map]
    rfl
  unclosed items a text h hnone := by
    rw [observed, h.scan_eq, Scanner.findings_unclosed hnone, List.map_append, List.map_append,
      Scanner.strays, List.map_map]
    rfl
  unterminated pre e post h hfault := by
    refine ⟨tokenize_unterminated_last h hfault, ?_⟩
    have he : .error e ∈ tokenize source := by simp [h]
    obtain ⟨f, s, hmem, hitem⟩ := exists_mem_scan he
    obtain ⟨hreport, hfound⟩ := Finding.fault_of_toItem hitem
    obtain ⟨s₀, hs₀, -, hstep⟩ := exists_step_of_mem_scan hmem
    have hmode := (hstep.of_unterminated hs₀ (hfault ▸ hfound)).1
    obtain ⟨items, a, text, hcomes, ⟨i, -, -, hx⟩ | ⟨hnone, hx⟩⟩ :=
      (Comes.start source).fromLiteral hmem (by simp [hmode])
    · cases hx
      cases hmode
    · cases hx
      exact ⟨items, a, text, hcomes, hnone, hreport.trans (by rw [hfault])⟩
  inside item h := by
    obtain ⟨x, hmem, hx⟩ := List.mem_map.mp h
    obtain ⟨hitem, hmode⟩ := Prod.mk.inj hx
    have hnormal : x.2.mode ≠ .normal := by
      intro hnormal
      rw [hnormal] at hmode
      cases hmode
    obtain ⟨items, a, text, hcomes, ⟨i, hstray, hopen, rfl⟩ | ⟨-, rfl⟩⟩ :=
      (Comes.start source).fromLiteral hmem hnormal
    · exact ⟨items, a, text, i, hcomes, hstray, hopen, hitem.symm⟩
    · cases hmode
  ended n hn := by
    have hlength : (tokenize source).length = (Scanner.start source.toList).findings.length := by
      rw [tokenize_eq_map_scan, List.length_map]
      rfl
    rw [Scanner.mode_behind (Scanner.wellFormed_start _) (hlength ▸ hn)]
    rfl

end TinyC
