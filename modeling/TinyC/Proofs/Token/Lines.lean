import TinyC.Proofs.Text.Position
import TinyC.Proofs.Token.Lookahead

/-!
# Line feeds between tokens

Outside string literals, no lexeme goes over a line feed and none looks past it. So the items of two
texts with a line feed between them are those of the first text and then those of the second one, at
places that are further on.
-/

namespace TinyC

open Text

/-! ## Places further on -/

/-- The item some bytes and some lines further on. -/
def Item.moved (bytes lines : Nat) : Item → Item
  | .ok t => .ok ⟨t.start + bytes, t.value, t.stop + bytes⟩
  | .error e => .error { e with
      location := e.location + bytes
      position := ⟨e.position.line + lines, e.position.column⟩ }

namespace Finding

/-- The finding some bytes further on. -/
def moved (bytes : Nat) (f : Finding) : Finding := { f with start := f.start + bytes }

variable {source : List Char} {f : Finding}

/-- Lines that follow do not change an item. -/
theorem toItem_append_feed (h : f.In source) (text : List Char) :
    f.toItem (source ++ '\n' :: text) = f.toItem source := by
  obtain ⟨before, after, rfl, hstart⟩ := h
  cases hfound : f.found with
  | ok t => simp only [toItem, hfound]
  | error fault =>
    simp only [toItem, hfound, hstart]
    rw [List.append_assoc, List.append_assoc, LexicalError.report_byteSize,
      LexicalError.report_byteSize, ← List.append_assoc, firstLine_append_feed]

/-- Lines that stand before a text move its items on. -/
theorem toItem_moved (h : f.In source) (text : List Char) :
    (f.moved (byteSize text + 1)).toItem (text ++ '\n' :: source) =
      Item.moved (byteSize text + 1) (text.count '\n' + 1) (f.toItem source) := by
  obtain ⟨before, after, rfl, hstart⟩ := h
  cases hfound : f.found with
  | ok t => simp [toItem, moved, hfound, Item.moved, stop, Nat.add_right_comm]
  | error fault =>
    have hoffset : byteSize before + (byteSize text + 1) = byteSize (text ++ '\n' :: before) := by
      have hfeed : '\n'.utf8Size = 1 := rfl
      rw [byteSize_append, byteSize_cons, hfeed]
      omega
    have hlines : (text ++ '\n' :: before).count '\n' + 1 =
        before.count '\n' + 1 + (text.count '\n' + 1) := by
      rw [List.count_append, List.count_cons_self]
      omega
    have hsource : text ++ '\n' :: (before ++ (f.text ++ after)) =
        text ++ '\n' :: before ++ (f.text ++ after) := by simp
    simp only [toItem, moved, hfound, hstart]
    rw [hoffset, hsource, LexicalError.report_byteSize, LexicalError.report_byteSize,
      lastLine_append_feed, hlines, ← hoffset]
    rfl

end Finding

/-! ## Scans -/

namespace Scanner

/-- The note some bytes further on. -/
def movedNote (bytes : Nat) (y : Finding × Bool) : Finding × Bool := (y.1.moved bytes, y.2)

theorem noted_strays_moved (bytes a : Nat) (text : List Char) (n : Nat) :
    (strays (a + bytes) text n).map noted =
      ((strays a text n).map noted).map (movedNote bytes) := by
  rw [strays, strays, List.map_map, List.map_map, List.map_map]
  refine List.map_congr_left fun i _ => ?_
  simp only [Function.comp_apply, noted, strayAt, movedNote, Finding.moved, Nat.add_right_comm]
  rfl

/-- Where a text starts does not matter for what is found in it. -/
theorem notes_moved (bytes offset : Nat) (text : List Char) :
    notes (offset + bytes) text = (notes offset text).map (movedNote bytes) := by
  refine normal_induct (P := fun offset text =>
    notes (offset + bytes) text = (notes offset text).map (movedNote bytes)) ?_ ?_ ?_ ?_ ?_ offset text
  · intro offset
    simp
  · intro offset gap rest hgap ih
    rw [notes_gap hgap, notes_gap hgap, Nat.add_right_comm, ih]
  · intro offset c cs found hfound ih
    rw [notes_lexeme hfound, notes_lexeme hfound, Nat.add_right_comm, ih]
    rfl
  · intro offset text n hfirst ih
    have hliteral : closedNotes (offset + bytes) text n =
        (closedNotes offset text n).map (movedNote bytes) := by
      rw [closedNotes, closedNotes, noted_strays_moved, List.map_append]
      rfl
    rw [notes_closed hfirst, notes_closed hfirst, Nat.add_right_comm, ih, hliteral, List.map_append]
  · intro offset text hnone
    rw [notes_unclosed hnone, notes_unclosed hnone, noted_strays_moved, List.map_append]
    rfl

/-- A line feed behind a text whose literals all have an end does not change what is found in it. -/
theorem notes_append_feed (offset : Nat) (text : List Char) :
    (∀ y ∈ notes offset text, y.1.found ≠ .error .unterminatedString) →
    ∀ rest, notes offset (text ++ '\n' :: rest) =
      notes offset text ++ notes (offset + byteSize text + 1) rest := by
  refine normal_induct (P := fun offset text =>
    (∀ y ∈ notes offset text, y.1.found ≠ .error .unterminatedString) →
    ∀ rest, notes offset (text ++ '\n' :: rest) =
      notes offset text ++ notes (offset + byteSize text + 1) rest) ?_ ?_ ?_ ?_ ?_ offset text
  · intro offset _ rest
    have hfeed : Gap rest ['\n'] := .blank (by simp) .nil
    rw [List.nil_append, notes_nil, List.nil_append]
    exact notes_gap hfeed offset
  · intro offset gap text hgap ih hends rest
    have hgap' : Gap (text ++ '\n' :: rest) gap := by
      refine hgap.congr fun hhead => ?_
      cases text with
      | nil => simp
      | cons c text => exact hhead
    rw [notes_gap hgap] at hends ⊢
    rw [List.append_assoc, notes_gap hgap', ih hends, byteSize_append, ← Nat.add_assoc]
  · intro offset c cs found hfound ih hends rest
    have hgap : (Lexeme.of c cs).reading ≠ .gap := by
      intro hgap
      rw [hgap] at hfound
      cases hfound
    have hof := Lexeme.of_append_feed hgap rest
    have hfound' : (Lexeme.of c (cs ++ '\n' :: rest)).reading.found? = some found := by
      rw [hof]
      exact hfound
    have hsize : byteSize (c :: cs) =
        byteSize (Lexeme.of c cs).text + byteSize (Lexeme.of c cs).rest := by
      rw [← byteSize_append, (Lexeme.of_splits c cs).append]
    rw [notes_lexeme hfound] at hends ⊢
    rw [List.cons_append, notes_lexeme hfound', hof,
      ih (fun y hy => hends y (List.mem_cons_of_mem _ hy)), hsize, ← Nat.add_assoc]
    rfl
  · intro offset text n hfirst ih hends rest
    have hn := (List.getElem?_eq_some_iff.mp hfirst.1.1).1
    have htake : (text ++ '\n' :: rest).take (n + 1) = text.take (n + 1) :=
      List.take_append_of_le_length hn
    have hdrop : (text ++ '\n' :: rest).drop (n + 1) = text.drop (n + 1) ++ '\n' :: rest :=
      List.drop_append_of_le_length hn
    have hsize : byteSize ('"' :: text) =
        byteSize ('"' :: text.take (n + 1)) + byteSize (text.drop (n + 1)) := by
      rw [← byteSize_append, List.cons_append, List.take_append_drop]
    rw [notes_closed hfirst] at hends ⊢
    rw [List.cons_append, notes_closed (hfirst.congr htake), closedNotes_congr htake, htake, hdrop,
      ih (fun y hy => hends y (List.mem_append_right _ hy)), hsize, List.append_assoc,
      ← Nat.add_assoc]
  · intro offset text hnone hends
    refine absurd rfl (hends (noted (unclosed offset text)) ?_)
    rw [notes_unclosed hnone]
    exact List.mem_append_right _ List.mem_cons_self

end Scanner

/-! ## Sources -/

/-- A literal without an end is what the items end in. -/
theorem found_ne_unterminated {source : String}
    (h : ∀ e, (tokenize source).getLast? = some (.error e) → e.fault ≠ .unterminatedString)
    {y : Finding × Bool} (hy : y ∈ notesOf source) : y.1.found ≠ .error .unterminatedString := by
  intro hfound
  obtain ⟨before, after, hsplit⟩ := List.append_of_mem hy
  have hitem : y.1.toItem source.toList =
      .error (.report source.toList .unterminatedString y.1.start y.1.text) := by
    simp only [Finding.toItem, hfound]
  have htokens := tokenize_eq_map_notesOf source
  rw [hsplit, List.map_append, List.map_cons, hitem] at htokens
  have hlast := tokenize_unterminated_last htokens rfl
  rw [hlast] at htokens
  exact h _ (by rw [htokens, List.getLast?_concat]) rfl

/-- The items of two texts with a line feed between them. -/
theorem tokenize_append_feed (source text : String)
    (h : ∀ e, (tokenize source).getLast? = some (.error e) → e.fault ≠ .unterminatedString) :
    tokenize (source ++ "\n" ++ text) = tokenize source ++
      (tokenize text).map (Item.moved (source.utf8ByteSize + 1) (source.toList.count '\n' + 1)) := by
  have hwhole : (source ++ "\n" ++ text).toList = source.toList ++ '\n' :: text.toList := by simp
  have hnotes : notesOf (source ++ "\n" ++ text) = notesOf source ++
      (notesOf text).map (Scanner.movedNote (byteSize source.toList + 1)) := by
    rw [notesOf, hwhole, Scanner.notes_append_feed 0 _ (fun y => found_ne_unterminated h),
      Nat.add_assoc, Scanner.notes_moved]
    rfl
  rw [tokenize_eq_map_notesOf, hnotes, hwhole, List.map_append, ← byteSize_toList]
  congr 1
  · rw [tokenize_eq_map_notesOf]
    exact List.map_congr_left fun y hy => Finding.toItem_append_feed (Finding.in_of_mem hy) _
  · rw [tokenize_eq_map_notesOf, List.map_map, List.map_map]
    exact List.map_congr_left fun y hy => Finding.toItem_moved (Finding.in_of_mem hy) _

/-- A quote in a comment opens no literal, so a line feed ends the comment. -/
theorem tokenize_append_feed_comment :
    (∀ e, (tokenize "é\n@ // \"").getLast? = some (.error e) → e.fault ≠ .unterminatedString) ∧
    tokenize ("é\n@ // \"" ++ "\n" ++ "\"a\\b") =
      tokenize "é\n@ // \"" ++ (tokenize "\"a\\b").map (Item.moved 10 2) := by
  have hscan : scan "é\n@ // \"" =
      [(⟨0, ['é'], .error .unexpectedCharacter⟩, ⟨.normal, 2, ['\n', '@', ' ', '/', '/', ' ', '"']⟩),
        (⟨3, ['@'], .error .unexpectedCharacter⟩, ⟨.normal, 4, [' ', '/', '/', ' ', '"']⟩)] := calc
    _ = Scanner.findings ⟨.normal, 0, ['é', '\n', '@', ' ', '/', '/', ' ', '"']⟩ := rfl
    _ = _ :: Scanner.findings ⟨.normal, 2, ['\n', '@', ' ', '/', '/', ' ', '"']⟩ :=
      Scanner.findings_lexeme rfl 0
    _ = _ :: Scanner.findings ⟨.normal, 3, ['@', ' ', '/', '/', ' ', '"']⟩ := by
      rw [Scanner.findings_blank rfl]
      rfl
    _ = _ :: _ :: Scanner.findings ⟨.normal, 4, [' ', '/', '/', ' ', '"']⟩ := by
      rw [Scanner.findings_lexeme rfl]
      rfl
    _ = _ := by
      have hcomment : Gap [] ('/' :: '/' :: ([' ', '"'] ++ [])) :=
        .comment (by decide) (by simp) .nil
      have hend : Scanner.findings ⟨.normal, 4, [' ', '/', '/', ' ', '"']⟩ = [] :=
        (Scanner.findings_gap (.blank (by simp) hcomment) 4).trans (Scanner.findings_nil _)
      rw [hend]
      rfl
  have hends : ∀ e, (tokenize "é\n@ // \"").getLast? = some (.error e) →
      e.fault ≠ .unterminatedString := by
    intro e he
    rw [tokenize_eq_map_scan, hscan] at he
    cases he
    simp [LexicalError.report]
  exact ⟨hends, tokenize_append_feed _ _ hends⟩

end TinyC
