import TinyC.Proofs.Token.Steps

/-!
# Nothing is lost

The findings of a scan and the gaps between them make up the source: every byte is in one finding or
in one gap. Faults inside a string literal are the exception. They lie inside the literal, which is
found behind them.
-/

namespace TinyC

open Text

/-! ## Pieces of a source -/

/-- A stretch of a source: a finding, or a gap between findings. -/
inductive Piece
  | finding (f : Finding)
  | gap (start : Nat) (text : List Char)

namespace Piece

def start : Piece → Nat
  | .finding f => f.start
  | .gap start _ => start

def text : Piece → List Char
  | .finding f => f.text
  | .gap _ text => text

def stop (p : Piece) : Nat := p.start + byteSize p.text

def finding? : Piece → Option Finding
  | .finding f => some f
  | .gap .. => none

/-- A gap holds blanks and comments only. -/
def Fits (rest : List Char) : Piece → Prop
  | .finding _ => True
  | .gap _ text => Gap rest text

end Piece

/-- The pieces make up a text that starts at a byte offset, each one right behind the one before. -/
inductive Tiles : Nat → List Char → List Piece → Prop
  | nil (offset : Nat) : Tiles offset [] []
  | cons {p : Piece} {rest : List Char} {pieces : List Piece} : p.Fits rest →
    Tiles p.stop rest pieces → Tiles p.start (p.text ++ rest) (p :: pieces)

namespace Tiles

variable {offset : Nat} {cs : List Char} {pieces : List Piece} {p : Piece}

theorem le_start (h : Tiles offset cs pieces) (hp : p ∈ pieces) : offset ≤ p.start := by
  induction h with
  | nil => cases hp
  | @cons q rest pieces _ _ ih =>
    rcases List.mem_cons.mp hp with rfl | hp
    · exact Nat.le_refl _
    · exact Nat.le_trans (Nat.le_add_right _ _) (ih hp)

theorem pairwise (h : Tiles offset cs pieces) :
    pieces.Pairwise fun p q => p.stop ≤ q.start := by
  induction h with
  | nil => exact .nil
  | cons _ htail ih => exact .cons (fun q hq => htail.le_start hq) ih

/-- Every byte is in exactly one piece. -/
theorem existsUnique (h : Tiles offset cs pieces) {b : Nat} (hle : offset ≤ b)
    (hlt : b < offset + byteSize cs) : ∃! p, p ∈ pieces ∧ p.start ≤ b ∧ b < p.stop := by
  induction h with
  | nil => exact absurd hlt (Nat.not_lt.mpr hle)
  | @cons q rest pieces _ htail ih =>
    by_cases hq : b < q.stop
    · refine ⟨q, ⟨List.mem_cons_self, hle, hq⟩, ?_⟩
      rintro p ⟨hp, hstart, -⟩
      rcases List.mem_cons.mp hp with rfl | hp
      · rfl
      · exact absurd (Nat.lt_of_lt_of_le hq (htail.le_start hp)) (Nat.not_lt.mpr hstart)
    · have hend : b < q.stop + byteSize rest := by
        rw [byteSize_append] at hlt
        simpa [Piece.stop, Nat.add_assoc] using hlt
      obtain ⟨p, ⟨hp, hholds⟩, hunique⟩ := ih (Nat.not_lt.mp hq) hend
      refine ⟨p, ⟨List.mem_cons_of_mem _ hp, hholds⟩, ?_⟩
      rintro p' ⟨hp', hholds'⟩
      rcases List.mem_cons.mp hp' with rfl | hp'
      · exact absurd hholds'.2 hq
      · exact hunique p' ⟨hp', hholds'⟩

/-- Every piece quotes the text. -/
theorem quotes (h : Tiles offset cs pieces) (hp : p ∈ pieces) :
    ∃ before after, cs = before ++ (p.text ++ after) ∧ p.start = offset + byteSize before ∧
      p.Fits after := by
  induction h with
  | nil => cases hp
  | @cons q rest pieces hq _ ih =>
    rcases List.mem_cons.mp hp with rfl | hp
    · exact ⟨[], rest, rfl, rfl, hq⟩
    · obtain ⟨before, after, rfl, hstart, hfits⟩ := ih hp
      refine ⟨q.text ++ before, after, by simp, ?_, hfits⟩
      simp [hstart, Piece.stop, Nat.add_assoc]

end Tiles

/-! ## Scans -/

namespace Scanner

/-- The findings of a scan that are no fault inside a string literal. -/
def outer (findings : List (Finding × Scanner)) : List Finding :=
  (findings.filter fun x => !x.2.mode.isInString).map (·.1)

theorem outer_cons {f : Finding} {s : Scanner} (h : s.mode.isInString = false)
    (findings : List (Finding × Scanner)) : outer ((f, s) :: findings) = f :: outer findings := by
  simp [outer, h]

theorem outer_cons_inString {f : Finding} {s : Scanner} (h : s.mode.isInString = true)
    (findings : List (Finding × Scanner)) : outer ((f, s) :: findings) = outer findings := by
  simp [outer, h]

/-- The findings, with gaps between them, make up the text from a byte on. -/
def Tiled (offset : Nat) (cs : List Char) (findings : List (Finding × Scanner)) : Prop :=
  ∃ pieces, Tiles offset cs pieces ∧ pieces.filterMap Piece.finding? = outer findings

namespace Tiled

variable {offset : Nat} {findings : List (Finding × Scanner)} {rest : List Char}

theorem finding {cs : List Char} {f : Finding} {s : Scanner} (hs : s.mode.isInString = false)
    (hstart : offset = f.start) (hcs : cs = f.text ++ rest) (h : Tiled f.stop rest findings) :
    Tiled offset cs ((f, s) :: findings) := by
  subst hstart hcs
  obtain ⟨pieces, htiles, hpieces⟩ := h
  have hcons : Tiles f.start (f.text ++ rest) (.finding f :: pieces) :=
    Tiles.cons (p := .finding f) trivial htiles
  refine ⟨_, hcons, ?_⟩
  rw [outer_cons hs, ← hpieces]
  rfl

theorem gap {gap : List Char} (hgap : Gap rest gap)
    (h : Tiled (offset + byteSize gap) rest findings) : Tiled offset (gap ++ rest) findings := by
  obtain ⟨pieces, htiles, hpieces⟩ := h
  have hcons : Tiles offset (gap ++ rest) (.gap offset gap :: pieces) :=
    Tiles.cons (p := .gap offset gap) hgap htiles
  exact ⟨_, hcons, hpieces⟩

theorem pairwise {cs : List Char} (h : Tiled offset cs findings) :
    (outer findings).Pairwise fun f g => f.stop ≤ g.start := by
  obtain ⟨pieces, htiles, hpieces⟩ := h
  rw [← hpieces, List.pairwise_filterMap]
  apply htiles.pairwise.imp
  intro p q hle f hf g hg
  cases p with
  | gap => cases hf
  | finding =>
    cases q with
    | gap => cases hg
    | finding =>
      cases hf
      cases hg
      exact hle

end Tiled

theorem StepInString.tiled {start : Nat} {opened ahead : List Char} {f : Finding} {s : Scanner}
    (h : StepInString start opened ahead f s) {findings : List (Finding × Scanner)}
    (hs : Tiled s.base s.ahead findings) : Tiled start (opened ++ ahead) ((f, s) :: findings) := by
  cases h with
  | close body rest h => exact .finding rfl rfl (by simp [h]) hs
  | fault body rest c h =>
    -- The literal goes on, so nothing of it is covered yet.
    obtain ⟨pieces, htiles, hpieces⟩ := hs
    refine ⟨pieces, ?_, hpieces.trans (outer_cons_inString rfl _).symm⟩
    simpa [h] using htiles
  | unterminated => exact .finding rfl rfl (by simp) hs

theorem Step.tiled {s s' : Scanner} {f : Finding} (h : Step s f s')
    {findings : List (Finding × Scanner)} (hs : Tiled s'.base s'.ahead findings) :
    Tiled s.base s.ahead ((f, s') :: findings) := by
  cases h with
  | lexeme hgap => exact .gap hgap (.finding rfl rfl rfl hs)
  | opening hgap h => exact .gap hgap (h.tiled hs)
  | inString h => exact h.tiled hs

theorem findings_tiled {s : Scanner} (hs : s.WellFormed) : Tiled s.base s.ahead s.findings := by
  apply findings_induct (P := fun s findings => Tiled s.base s.ahead findings) ?_
    (fun _ hstep ih => hstep.tiled ih) hs
  intro s hmode hgap
  have hnil : Tiled (s.base + byteSize s.rest) [] [] := ⟨[], .nil _, rfl⟩
  rw [ahead_eq_rest hmode, ← List.append_nil s.rest]
  exact .gap hgap hnil

/-! ## Faults inside string literals -/

/-- The findings go on with faults in a string literal and then that literal, as a token or as the
last fault. It covers the bytes from `start` to `stop`. -/
def LiteralAround (start stop : Nat) (findings : List (Finding × Scanner)) : Prop :=
  ∃ (inner rest : List (Finding × Scanner)) (g : Finding) (s : Scanner),
    findings = inner ++ (g, s) :: rest ∧ (∀ x ∈ inner, x.2.mode.isInString) ∧
    g.start ≤ start ∧ stop ≤ g.stop ∧
    ((∃ literal, g.found = .ok (.str literal)) ∨ g.found = .error .unterminatedString ∧ rest = [])

theorem LiteralAround.mono {start start' stop stop' : Nat} {findings : List (Finding × Scanner)}
    (h : LiteralAround start stop findings) (hstart : start ≤ start') (hstop : stop' ≤ stop) :
    LiteralAround start' stop' findings := by
  obtain ⟨inner, rest, g, s, hfindings, hinner, hle, hle', hfound⟩ := h
  exact ⟨inner, rest, g, s, hfindings, hinner, hle.trans hstart, hstop.trans hle', hfound⟩

theorem LiteralAround.cons {start stop : Nat} {findings : List (Finding × Scanner)}
    (h : LiteralAround start stop findings) {f : Finding} {s : Scanner}
    (hmode : s.mode.isInString) : LiteralAround start stop ((f, s) :: findings) := by
  obtain ⟨inner, rest, g, s', hfindings, hinner, hliteral⟩ := h
  exact ⟨(f, s) :: inner, rest, g, s', congrArg _ hfindings,
    List.forall_mem_cons.mpr ⟨hmode, hinner⟩, hliteral⟩

/-- A string literal that is open is found later. -/
theorem literalAround_findings {s : Scanner} (hs : s.WellFormed) (hmode : s.mode.isInString) :
    LiteralAround s.base s.offset s.findings := by
  apply findings_induct (P := fun s findings => s.mode.isInString →
    LiteralAround s.base s.offset findings) ?_ ?_ hs hmode
  · intro s hnormal _ hmode
    cases hnormal.symm.trans hmode
  · intro s f s' hs hstep ih hmode
    cases hstep with
    | lexeme | opening => cases hmode
    | @inString start offset text rest _ _ h =>
      have hoffset : offset = start + byteSize text.reverse := hs.2
      cases h with
      | close body rest h =>
        refine ⟨[], _, _, _, rfl, by simp, Nat.le_refl _, ?_, .inl ⟨_, rfl⟩⟩
        simp [hoffset, Finding.stop]
      | fault body rest c h =>
        -- The literal is still open behind the fault, and reaches further from there.
        exact ((ih rfl).cons rfl).mono (Nat.le_refl _) (by simp [hoffset])
      | unterminated =>
        refine ⟨[], _, _, _, rfl, by simp, Nat.le_refl _, ?_, .inr ⟨rfl, findings_of_finished rfl⟩⟩
        simp [hoffset, Finding.stop]

/-- A fault that leaves a string literal open lies inside it. -/
theorem Step.inside {s s' : Scanner} {f : Finding} (h : Step s f s') (hs : s.WellFormed)
    (hmode : s'.mode.isInString) :
    f.found = .error .unexpectedCharacter ∧ s'.base ≤ f.start ∧ f.stop = s'.offset := by
  obtain ⟨hnormal, -⟩ | ⟨start, body, ahead, h⟩ := h.lexeme_or_literal hs
  · rw [hnormal] at hmode
    cases hmode
  · cases h with
    | close | unterminated => cases hmode
    | fault body rest c h =>
      refine ⟨rfl, Nat.le_add_right _ _, ?_⟩
      simp [Finding.stop, Nat.add_assoc]

/-! ## The number of findings -/

/-- A bound on the findings to come. A string literal that is open gives one even at the end. -/
def due (s : Scanner) : Nat := byteSize s.rest + if s.mode.isInString then 1 else 0

theorem StepInString.due_le {start : Nat} {opened ahead : List Char} {f : Finding} {s : Scanner}
    (h : StepInString start opened ahead f s) : s.due ≤ byteSize ahead := by
  cases h with
  | close body rest h =>
    simp [due, h, Mode.isInString]
    omega
  | fault body rest c h =>
    have := c.utf8Size_pos
    simp [due, h, Mode.isInString]
    omega
  | unterminated => simp [due, Mode.isInString]

theorem Step.due_lt {s s' : Scanner} {f : Finding} (h : Step s f s') : s'.due < s.due := by
  cases h with
  | @lexeme offset gap text rest found _ hne =>
    have hpos := byteSize_pos hne
    simp only [due, Mode.isInString, byteSize_append]
    omega
  | @opening offset gap rest f s' _ h =>
    have hle := h.due_le
    have hpos := '"'.utf8Size_pos
    simp only [due, Mode.isInString, byteSize_append, byteSize_cons] at hle ⊢
    omega
  | inString h => exact Nat.lt_succ_of_le h.due_le

theorem length_findings_le {s : Scanner} (hs : s.WellFormed) : s.findings.length ≤ s.due := by
  apply findings_induct (P := fun s findings => findings.length ≤ s.due) ?_ ?_ hs
  · intro s _ _
    exact Nat.zero_le _
  · intro s f s' _ hstep ih
    exact Nat.lt_of_le_of_lt ih hstep.due_lt

/-! ## Calls of `next` -/

/-- The scanner behind a number of calls. -/
def behind (n : Nat) (s : Scanner) : Scanner := (fun s => s.next.2)^[n] s

/-- Calls yield the findings one by one, and then nothing any more. -/
theorem next_behind {s : Scanner} (hs : s.WellFormed) (n : Nat) :
    (s.behind n).next.1 = (s.findings.map (·.1))[n]? := by
  induction n generalizing s with
  | zero =>
    cases hnext : s.next with
    | mk found s' =>
      cases found with
      | none => simp [behind, hnext, findings_of_next_none hnext]
      | some f => simp [behind, hnext, findings_of_next hnext]
  | succ n ih =>
    have hbehind : s.behind (n + 1) = s.next.2.behind n := rfl
    cases hnext : s.next with
    | mk found s' =>
      rw [hbehind, hnext]
      cases found with
      | none =>
        have hend := next_of_finished (next_none hs hnext).2.2
        have hstays : s'.behind n = s' := Function.iterate_fixed (by rw [hend]) n
        rw [hstays, hend, findings_of_next_none hnext]
        rfl
      | some f =>
        rw [ih ((next_step hs hnext).wellFormed hs), findings_of_next hnext]
        rfl

end Scanner

/-! ## Sources -/

/-- What is found in a source, each finding with the scanner behind it. `tokenize` lists the items of
the findings. -/
def scan (source : String) : List (Finding × Scanner) := (Scanner.start source.toList).findings

theorem tokenize_eq_map_scan (source : String) :
    tokenize source = (scan source).map fun x => x.1.toItem source.toList := rfl

theorem Finding.found_of_toItem {source : List Char} {f : Finding} {t : Spanned Token}
    (h : f.toItem source = .ok t) : t = ⟨f.start, t.value, f.stop⟩ ∧ f.found = .ok t.value := by
  simp only [toItem] at h
  split at h
  · cases h
    exact ⟨rfl, ‹_›⟩
  · cases h

theorem Finding.fault_of_toItem {source : List Char} {f : Finding} {e : LexicalError}
    (h : f.toItem source = .error e) :
    e = .report source e.fault f.start f.text ∧ f.found = .error e.fault := by
  simp only [toItem] at h
  split at h
  · cases h
  · cases h
    exact ⟨rfl, ‹_›⟩

/-- Every finding is made by a step somewhere in the source. -/
theorem exists_step_of_mem_scan {source : String} {f : Finding} {s : Scanner}
    (h : (f, s) ∈ scan source) :
    ∃ s₀ : Scanner, s₀.WellFormed ∧ s₀.Within source.toList ∧ s₀.Step f s := by
  obtain ⟨pre, post, hsplit⟩ := List.append_of_mem h
  exact (Scanner.findings_split (Scanner.wellFormed_start _) (Scanner.within_start _) hsplit).2

theorem exists_mem_scan {source : String} {item : Item} (h : item ∈ tokenize source) :
    ∃ f s, (f, s) ∈ scan source ∧ Finding.toItem source.toList f = item := by
  rw [tokenize_eq_map_scan] at h
  obtain ⟨⟨f, s⟩, hmem, hitem⟩ := List.mem_map.mp h
  exact ⟨f, s, hmem, hitem⟩

theorem scan_tiled (source : String) : Scanner.Tiled 0 source.toList (scan source) :=
  Scanner.findings_tiled (Scanner.wellFormed_start source.toList)

theorem start_lt_stop_of_mem_outer {source : String} {f : Finding}
    (h : f ∈ Scanner.outer (scan source)) : f.start < f.stop := by
  obtain ⟨⟨f, s⟩, hmem, rfl⟩ := List.mem_map.mp h
  obtain ⟨s₀, hs₀, -, hstep⟩ := exists_step_of_mem_scan (List.mem_filter.mp hmem).1
  exact Nat.lt_add_of_pos_right (byteSize_pos (hstep.text_ne hs₀))

/-- The token covers characters of the source. -/
def Spanned.Covers (source : String) (t : Spanned Token) : Prop :=
  ∃ before lexeme after : List Char, source.toList = before ++ (lexeme ++ after) ∧ lexeme ≠ [] ∧
    t.start = byteSize before ∧ t.stop = byteSize (before ++ lexeme)

theorem covers_of_mem {source : String} {t : Spanned Token} (h : .ok t ∈ tokenize source) :
    t.Covers source := by
  obtain ⟨f, s, hmem, hitem⟩ := exists_mem_scan h
  obtain ⟨s₀, hs₀, hwithin, hstep⟩ := exists_step_of_mem_scan hmem
  obtain ⟨before, after, hsource, hstart, -⟩ := hstep.quotes hwithin
  obtain ⟨hspan, -⟩ := Finding.found_of_toItem hitem
  rw [hspan]
  refine ⟨before, f.text, after, hsource, hstep.text_ne hs₀, hstart, ?_⟩
  rw [Finding.stop, hstart, byteSize_append]

/-- The error quotes the source at the place where it stands. -/
structure LexicalError.Quotes (source : String) (e : LexicalError) : Prop where
  stretch : ∃ before after : List Char, source.toList = before ++ (e.lexeme.toList ++ after) ∧
    e.location = byteSize before ∧ (e.fault = .unterminatedString → after = [])
  char : e.lexeme.toList.head? = some e.char
  unexpected : e.fault = .unexpectedCharacter → e.lexeme.toList = [e.char]
  unterminated : e.fault = .unterminatedString →
    e.char = '"' ∧ (tokenize source).getLast? = some (.error e)

theorem quotes_of_mem {source : String} {e : LexicalError} (h : .error e ∈ tokenize source) :
    e.Quotes source := by
  obtain ⟨f, s, hmem, hitem⟩ := exists_mem_scan h
  obtain ⟨s₀, hs₀, hwithin, hstep⟩ := exists_step_of_mem_scan hmem
  obtain ⟨hreport, hfound⟩ := Finding.fault_of_toItem hitem
  have hlexeme : e.lexeme.toList = f.text := by
    rw [hreport]
    exact String.toList_ofList
  have hchar : e.lexeme.toList.head? = some e.char := by
    obtain ⟨c, cs, htext⟩ := List.exists_cons_of_ne_nil (hstep.text_ne hs₀)
    rw [hlexeme, hreport, htext]
    rfl
  refine ⟨?_, hchar, ?_, ?_⟩
  · obtain ⟨before, after, hsource, hstart, hafter⟩ := hstep.quotes hwithin
    refine ⟨before, after, by rw [hlexeme, hsource], by rw [hreport, ← hstart]; rfl, ?_⟩
    intro hfault
    obtain ⟨hfinished, hahead, -⟩ := hstep.of_unterminated hs₀ (hfault ▸ hfound)
    rw [hafter (by rw [hfinished]; rfl), hahead]
  · intro hfault
    obtain ⟨c, hc⟩ := hstep.text_of_unexpected hs₀ (hfault ▸ hfound)
    rw [hlexeme, hc] at hchar ⊢
    rw [Option.some.inj hchar]
  · intro hfault
    obtain ⟨-, -, body, hbody⟩ := hstep.of_unterminated hs₀ (hfault ▸ hfound)
    obtain ⟨pre, post, hsplit⟩ := List.append_of_mem h
    obtain rfl := tokenize_unterminated_last hsplit hfault
    rw [hlexeme, hbody] at hchar
    exact ⟨(Option.some.inj hchar).symm, by rw [hsplit, List.getLast?_concat]⟩

/-- Nothing of a source is lost in its scan. -/
structure Lossless (source : String) : Prop where
  /-- Calls of `next` yield the items one by one, and then nothing any more. -/
  calls : ∀ n, ((Scanner.start source.toList).behind n).next.1.map (·.toItem source.toList) =
    (tokenize source)[n]?
  count : (tokenize source).length ≤ source.utf8ByteSize
  spans : ∀ t, .ok t ∈ tokenize source → t.Covers source
  errors : ∀ e, .error e ∈ tokenize source → e.Quotes source
  /-- Faults in string literals apart, findings come in the order of the source and do not
  overlap. -/
  ordered : (∀ f ∈ Scanner.outer (scan source), f.start < f.stop) ∧
    (Scanner.outer (scan source)).Pairwise fun f g => f.stop ≤ g.start
  /-- Between them there are only gaps, so that every byte is in one finding or in one gap. -/
  pieces : ∃ pieces : List Piece, pieces.filterMap Piece.finding? = Scanner.outer (scan source) ∧
    (∀ p ∈ pieces, ∃ before after : List Char, source.toList = before ++ (p.text ++ after) ∧
      p.start = byteSize before ∧ p.Fits after) ∧
    ∀ b < source.utf8ByteSize, ∃! p, p ∈ pieces ∧ p.start ≤ b ∧ b < p.stop
  /-- A fault in a string literal lies inside that literal, which is the next token or the last
  error. -/
  inside : ∀ (pre post : List (Finding × Scanner)) (f : Finding) (s : Scanner),
    scan source = pre ++ (f, s) :: post → s.mode.isInString →
    f.found = .error .unexpectedCharacter ∧ Scanner.LiteralAround f.start f.stop post

theorem tokenize_lossless (source : String) : Lossless source where
  calls n := by
    rw [Scanner.next_behind (Scanner.wellFormed_start _), tokenize_eq_map_scan,
      ← List.getElem?_map, List.map_map]
    rfl
  count := by
    have hle := Scanner.length_findings_le (Scanner.wellFormed_start source.toList)
    rw [tokenize_eq_map_scan, List.length_map, ← byteSize_toList]
    exact hle
  spans _ := covers_of_mem
  errors _ := quotes_of_mem
  ordered := ⟨fun _ => start_lt_stop_of_mem_outer, (scan_tiled source).pairwise⟩
  pieces := by
    obtain ⟨pieces, htiles, hpieces⟩ := scan_tiled source
    refine ⟨pieces, hpieces, ?_, ?_⟩
    · intro p hp
      obtain ⟨before, after, hsource, hstart, hfits⟩ := htiles.quotes hp
      exact ⟨before, after, hsource, by simpa using hstart, hfits⟩
    · intro b hb
      rw [← byteSize_toList] at hb
      exact htiles.existsUnique (Nat.zero_le _) (by simpa using hb)
  inside pre post f s hscan hmode := by
    obtain ⟨rfl, s₀, hs₀, -, hstep⟩ :=
      Scanner.findings_split (Scanner.wellFormed_start _) (Scanner.within_start _) hscan
    obtain ⟨hfound, hstart, hstop⟩ := hstep.inside hs₀ hmode
    have hliteral := Scanner.literalAround_findings (hstep.wellFormed hs₀) hmode
    exact ⟨hfound, hliteral.mono hstart hstop.le⟩

end TinyC
