import TinyC.Proofs.Text.Blanking
import TinyC.Proofs.Token.Lookahead

/-!
# Faults count as blanks

A fault outside string literals does not touch what is found around it: the scan goes on as if there
were blanks in its place. If the source has blanks there in fact, the same is found in it, but for
those faults.
-/

namespace TinyC

open Text

/-! ## Faults outside literals -/

/-- The fault outside literals that is noted. The scan goes on behind it. -/
def outsideFault? : Finding × Bool → Option LexicalFault
  | (⟨_, _, .error fault⟩, false) => if fault = .unterminatedString then none else some fault
  | _ => none

/-- The byte is part of a fault outside literals. -/
def covered (ys : List (Finding × Bool)) (b : Nat) : Bool :=
  ys.any fun y => (outsideFault? y).isSome && decide (y.1.start ≤ b) && decide (b < y.1.stop)

theorem covered_append (xs ys : List (Finding × Bool)) (b : Nat) :
    covered (xs ++ ys) b = (covered xs b || covered ys b) := by
  simp [covered]

theorem covered_eq_false {ys : List (Finding × Bool)} (h : ∀ y ∈ ys, outsideFault? y = none)
    (b : Nat) : covered ys b = false := by
  simp only [covered, List.any_eq_false]
  intro y hy
  simp [h y hy]

theorem covered_append_of_none {xs ys : List (Finding × Bool)}
    (h : ∀ x ∈ xs, outsideFault? x = none) : covered (xs ++ ys) = covered ys := by
  funext b
  simp [covered_append, covered_eq_false h]

theorem filter_eq_self_of_none {ys : List (Finding × Bool)} (h : ∀ y ∈ ys, outsideFault? y = none) :
    ys.filter (fun y => (outsideFault? y).isNone) = ys :=
  List.filter_eq_self.mpr fun y hy => by simp [h y hy]

namespace Scanner

/-- What is noted outside literals stands behind the start of the text. -/
theorem le_start_of_mem_notes {offset : Nat} {text : List Char} {y : Finding × Bool}
    (hy : y ∈ notes offset text) (houtside : y.2 = false) : offset ≤ y.1.start := by
  obtain ⟨x, hx, rfl⟩ := List.mem_map.mp hy
  obtain ⟨pieces, htiles, hpieces⟩ := findings_tiled (s := ⟨.normal, offset, text⟩) trivial
  have houter : x.1 ∈ outer (findings ⟨.normal, offset, text⟩) :=
    List.mem_map_of_mem (List.mem_filter.mpr ⟨hx, by simpa [noted] using houtside⟩)
  rw [← hpieces] at houter
  obtain ⟨p, hp, hfinding⟩ := List.mem_filterMap.mp houter
  cases p with
  | gap => cases hfinding
  | finding f =>
    cases hfinding
    exact htiles.le_start hp

theorem covered_of_lt {offset b : Nat} {text : List Char} (hb : b < offset) :
    covered (notes offset text) b = false := by
  simp only [covered, List.any_eq_false, Bool.and_eq_true, decide_eq_true_eq, not_and]
  rintro y hy ⟨hfault, hle⟩
  have houtside : y.2 = false := by
    obtain ⟨f, inside⟩ := y
    cases inside with
    | false => rfl
    | true => simp [outsideFault?] at hfault
  have hstart := le_start_of_mem_notes hy houtside
  omega

/-- What stands before the text in which the faults are stays as it is. -/
theorem blankOut_notes (offset : Nat) (front text : List Char) :
    blankOut (covered (notes (offset + byteSize front) text)) offset (front ++ text) =
      front ++ blankOut (covered (notes (offset + byteSize front) text))
        (offset + byteSize front) text := by
  rw [blankOut_append, blankOut_eq_self fun b _ hlt => covered_of_lt hlt]

/-! ### Lexemes and literals -/

theorem agrees_blankOut {marked : Nat → Bool} {offset : Nat} {cs : List Char} :
    Agrees cs (blankOut marked offset cs) := by
  induction cs generalizing offset with
  | nil => exact fun v _ hinitial => hinitial
  | cons c cs ih =>
    intro v hv hinitial
    cases v with
    | nil => simp
    | cons d v =>
      rw [blankOut] at hinitial
      split at hinitial
      · obtain ⟨n, hn⟩ := Nat.exists_eq_add_one.mpr c.utf8Size_pos
        rw [hn, List.replicate_succ, List.cons_append] at hinitial
        obtain ⟨rfl, -⟩ := List.cons_prefix_cons.mp hinitial
        exact absurd (hv ' ' List.mem_cons_self) (by decide)
      · rw [List.singleton_append] at hinitial
        obtain ⟨rfl, hinitial⟩ := List.cons_prefix_cons.mp hinitial
        exact List.cons_prefix_cons.mpr
          ⟨rfl, ih v (fun c hc => hv c (List.mem_cons_of_mem _ hc)) hinitial⟩

/-- A token is found as before if what follows agrees up to the first blank. -/
theorem notes_token {c : Char} {cs rest : List Char} {t : Token}
    (ht : (Lexeme.of c cs).reading = .token t) (hrest : Agrees (Lexeme.of c cs).rest rest)
    (offset : Nat) : notes offset ((Lexeme.of c cs).text ++ rest) =
      (⟨offset, (Lexeme.of c cs).text, .ok t⟩, false) ::
        notes (offset + byteSize (Lexeme.of c cs).text) rest := by
  obtain ⟨text, htext, -⟩ := Lexeme.exists_text_cons c cs
  have hsame : Lexeme.of c (text ++ rest) = ⟨.token t, c :: text, rest⟩ := by
    rw [← ht]
    exact Lexeme.of_agrees (by simp [ht]) htext hrest (Lexeme.not_stalls_of_token (by simp [ht]))
  have hfound : (Lexeme.of c (text ++ rest)).reading.found? = some (.ok t) := by
    rw [hsame]
    rfl
  rw [htext, List.cons_append, notes_lexeme hfound, hsame]

/-- Blanks in the place of a fault are passed over. -/
theorem notes_replicate_blank (offset n : Nat) (rest : List Char) :
    notes offset (List.replicate n ' ' ++ rest) = notes (offset + n) rest := by
  have hblanks : Gap rest (List.replicate n ' ') := by
    refine .of_blanks fun c hc => ?_
    rw [List.eq_of_mem_replicate hc]
    rfl
  rw [notes_gap hblanks, byteSize_replicate_blank]

theorem outsideFault?_strays {a n : Nat} {text : List Char} :
    ∀ y ∈ (strays a text n).map noted, outsideFault? y = none := by
  intro y hy
  obtain ⟨x, hx, rfl⟩ := List.mem_map.mp hy
  obtain ⟨i, -, rfl⟩ := List.mem_map.mp hx
  rfl

theorem outsideFault?_closedNotes {a n : Nat} {text : List Char} :
    ∀ y ∈ closedNotes a text n, outsideFault? y = none := by
  intro y hy
  rcases List.mem_append.mp hy with hy | hy
  · exact outsideFault?_strays y hy
  · rw [List.mem_singleton.mp hy]
    rfl

theorem outsideFault?_unclosed {a : Nat} {text : List Char} (hnone : ∀ i, ¬Closes text i) :
    ∀ y ∈ notes a ('"' :: text), outsideFault? y = none := by
  rw [notes_unclosed hnone]
  intro y hy
  rcases List.mem_append.mp hy with hy | hy
  · exact outsideFault?_strays y hy
  · rw [List.mem_singleton.mp hy]
    rfl

/-! ### Whole texts -/

/-- Nothing but faults outside literals is lost if these are blanked out. -/
def Clears (offset : Nat) (text : List Char) : Prop :=
  notes offset (blankOut (covered (notes offset text)) offset text) =
    (notes offset text).filter fun y => (outsideFault? y).isNone

namespace Clears

variable {offset : Nat}

theorem gap {gap rest : List Char} (hgap : Gap rest gap) (h : Clears (offset + byteSize gap) rest) :
    Clears offset (gap ++ rest) := by
  have hgap' : Gap (blankOut (covered (notes (offset + byteSize gap) rest))
      (offset + byteSize gap) rest) gap := by
    -- A comment at the end of the gap needs its line feed, and no fault begins with one.
    refine hgap.congr fun hhead => ?_
    cases rest with
    | nil => simp
    | cons c cs =>
      obtain rfl : c = '\n' := hhead c rfl
      have hfeed : Gap cs ['\n'] := .blank (by simp) .nil
      have hfree : covered (notes (offset + byteSize gap) ('\n' :: cs)) (offset + byteSize gap) =
          false := by
        rw [← List.singleton_append, notes_gap hfeed]
        exact covered_of_lt (Nat.lt_add_of_pos_right (byteSize_pos (by simp)))
      simp [blankOut, hfree]
  rw [Clears, notes_gap hgap, blankOut_notes, notes_gap hgap', h]

section

variable {c : Char} {cs : List Char}

theorem token {t : Token} (ht : (Lexeme.of c cs).reading = .token t)
    (h : Clears (offset + byteSize (Lexeme.of c cs).text) (Lexeme.of c cs).rest) :
    Clears offset (c :: cs) := by
  have hfound : (Lexeme.of c cs).reading.found? = some (.ok t) := by
    rw [ht]
    rfl
  have hnone : ∀ y ∈ [((⟨offset, (Lexeme.of c cs).text, .ok t⟩, false) : Finding × Bool)],
      outsideFault? y = none := by
    intro y hy
    rw [List.mem_singleton.mp hy]
    rfl
  rw [Clears, notes_lexeme hfound, ← List.singleton_append, covered_append_of_none hnone]
  rw [← (Lexeme.of_splits c cs).append, blankOut_notes, notes_token ht agrees_blankOut, h,
    List.filter_append, filter_eq_self_of_none hnone]
  rfl

theorem fault {f : LexicalFault} (hf : (Lexeme.of c cs).reading = .fault f)
    (h : Clears (offset + byteSize (Lexeme.of c cs).text) (Lexeme.of c cs).rest) :
    Clears offset (c :: cs) := by
  have hfound : (Lexeme.of c cs).reading.found? = some (.error f) := by
    rw [hf]
    rfl
  have hends : f ≠ .unterminatedString := by
    rintro rfl
    exact (Lexeme.of_faithful c cs).terminated hf
  have hfault : outsideFault? (⟨offset, (Lexeme.of c cs).text, .error f⟩, false) = some f :=
    if_neg hends
  have hblank : blankOut (covered (notes offset (c :: cs))) offset (c :: cs) =
      List.replicate (byteSize (Lexeme.of c cs).text) ' ' ++
        blankOut (covered (notes (offset + byteSize (Lexeme.of c cs).text) (Lexeme.of c cs).rest))
          (offset + byteSize (Lexeme.of c cs).text) (Lexeme.of c cs).rest := by
    rw [notes_lexeme hfound, ← (Lexeme.of_splits c cs).append, blankOut_append]
    congr 1
    · refine blankOut_eq_replicate fun b hle hlt => ?_
      simp [covered, hfault, hle, Finding.stop, hlt]
    · refine blankOut_congr fun b hb => ?_
      simp [covered, Finding.stop, Nat.not_lt.mpr hb]
  rw [Clears, hblank, notes_replicate_blank, h, notes_lexeme hfound, List.filter_cons_of_neg]
  simp [hfault]

end

section

variable {text : List Char}

theorem closed {n : Nat} (hfirst : FirstCloses text n)
    (h : Clears (offset + byteSize ('"' :: text.take (n + 1))) (text.drop (n + 1))) :
    Clears offset ('"' :: text) := by
  have hn := (List.getElem?_eq_some_iff.mp hfirst.1.1).1
  have hlength : (text.take (n + 1)).length = n + 1 := List.length_take_of_le hn
  have hsplit : '"' :: text = '"' :: text.take (n + 1) ++ text.drop (n + 1) := by simp
  rw [Clears, notes_closed hfirst, covered_append_of_none outsideFault?_closedNotes, hsplit,
    blankOut_notes, List.cons_append]
  -- What is blanked out stands behind the quote that ends the literal.
  rw [Clears] at h
  generalize blankOut _ _ (text.drop (n + 1)) = rest at h ⊢
  have htake : (text.take (n + 1) ++ rest).take (n + 1) = text.take (n + 1) :=
    List.take_left' hlength
  rw [notes_closed (hfirst.congr htake), closedNotes_congr htake, htake, List.drop_left' hlength, h,
    List.filter_append, filter_eq_self_of_none outsideFault?_closedNotes]

theorem unclosed (hnone : ∀ i, ¬Closes text i) : Clears offset ('"' :: text) := by
  have hinside := outsideFault?_unclosed (a := offset) hnone
  rw [Clears, blankOut_eq_self fun b _ _ => covered_eq_false hinside b,
    filter_eq_self_of_none hinside]

end

end Clears

theorem clears (offset : Nat) (text : List Char) : Clears offset text := by
  apply normal_induct (P := Clears) ?_ .gap ?_ .closed .unclosed
  · intro offset
    simp [Clears]
  · intro offset c cs found hfound ih
    rcases Reading.token_or_fault hfound with ⟨t, ht, -⟩ | ⟨f, hf, -⟩
    · exact .token ht ih
    · exact .fault hf ih

/-! ### Faults are on one line -/

theorem feed_not_mem_text {c : Char} {cs : List Char} {f : LexicalFault}
    (h : (Lexeme.of c cs).reading = .fault f) : '\n' ∉ (Lexeme.of c cs).text := by
  by_cases hs : Stalls (c :: cs)
  · obtain ⟨ds, x, rest, hds, hx, hshape, habsent⟩ := hs
    rw [Lexeme.of_stalls hds hx hshape habsent]
    intro hmem
    rcases List.mem_append.mp hmem with hmem | hmem
    · cases (mem_someOf.mp hds).2 '\n' hmem
    · cases List.mem_singleton.mp hmem
  · rcases Lexeme.of_obeys hs with ⟨r, hobeys⟩ | ⟨-, hlexeme⟩
    · have hreading := hobeys.reading.symm.trans h
      intro hmem
      have hplain := Rule.over_noGap (r := r) (by rintro rfl; cases hreading)
        (by rintro rfl; cases hreading) _ hobeys.mem '\n' hmem
      cases hplain
    · rw [hlexeme, List.mem_singleton]
      rintro rfl
      rw [Lexeme.reading_of_isGap rfl] at h
      cases h

theorem feed_not_mem_of_mem_notes {offset : Nat} {text : List Char} :
    ∀ y ∈ notes offset text, outsideFault? y ≠ none → '\n' ∉ y.1.text := by
  apply normal_induct (P := fun offset text =>
    ∀ y ∈ notes offset text, outsideFault? y ≠ none → '\n' ∉ y.1.text)
  · intro offset y hy
    simp at hy
  · intro offset gap rest hgap ih
    rwa [notes_gap hgap]
  · intro offset c cs found hfound ih y hy hfault
    rw [notes_lexeme hfound] at hy
    rcases List.mem_cons.mp hy with rfl | hy
    · rcases Reading.token_or_fault hfound with ⟨t, -, rfl⟩ | ⟨f, hf, -⟩
      · exact absurd rfl hfault
      · exact feed_not_mem_text hf
    · exact ih y hy hfault
  · intro offset text n hfirst ih y hy hfault
    rw [notes_closed hfirst] at hy
    rcases List.mem_append.mp hy with hy | hy
    · exact absurd (outsideFault?_closedNotes y hy) hfault
    · exact ih y hy hfault
  · intro offset text hnone y hy hfault
    exact absurd (outsideFault?_unclosed hnone y hy) hfault

end Scanner

/-! ## Sources -/

/-- The error outside literals that is observed. -/
def outsideError? : Item × Bool → Option LexicalError
  | (.error e, false) => if e.isRecoverable then some e else none
  | _ => none

/-- The errors outside literals. -/
def outsideErrors (source : String) : List LexicalError := (observed source).filterMap outsideError?

/-- What is observed but for the errors outside literals. -/
def keptOf (source : String) : List (Item × Bool) :=
  (observed source).filter fun x => (outsideError? x).isNone

/-- The byte is part of a lexeme that is reported outside literals. -/
def isReported (source : String) (b : Nat) : Bool :=
  (outsideErrors source).any fun e =>
    decide (e.location ≤ b) && decide (b < e.location + e.lexeme.utf8ByteSize)

/-- The source with the lexemes that are reported outside literals blanked out. -/
def blanked (source : String) : String :=
  String.ofList (blankOut (isReported source) 0 source.toList)

theorem observed_eq_map_notesOf (source : String) :
    observed source = (notesOf source).map fun y => (y.1.toItem source.toList, y.2) := by
  rw [observed, notesOf, Scanner.notes, List.map_map]
  rfl

theorem outsideError?_note (source : List Char) (y : Finding × Bool) :
    outsideError? (y.1.toItem source, y.2) =
      (outsideFault? y).map fun fault => .report source fault y.1.start y.1.text := by
  obtain ⟨⟨start, text, found⟩, inside⟩ := y
  cases found with
  | ok t => rfl
  | error fault =>
    cases inside with
    | true => rfl
    | false => cases fault <;> rfl

theorem keptOf_eq (source : String) : keptOf source =
    ((notesOf source).filter fun y => (outsideFault? y).isNone).map
      fun y => (y.1.toItem source.toList, y.2) := by
  simp only [keptOf, observed_eq_map_notesOf, List.filter_map, Function.comp_def,
    outsideError?_note, Option.isNone_map]

theorem mem_outsideErrors {source : String} {e : LexicalError} :
    e ∈ outsideErrors source ↔ ∃ y ∈ notesOf source, ∃ fault, outsideFault? y = some fault ∧
      .report source.toList fault y.1.start y.1.text = e := by
  simp only [outsideErrors, observed_eq_map_notesOf, List.filterMap_map, List.mem_filterMap,
    Function.comp_apply, outsideError?_note, Option.map_eq_some_iff]

theorem isReported_eq (source : String) : isReported source = covered (notesOf source) := by
  have hsize : ∀ fault (f : Finding),
      f.start + (LexicalError.report source.toList fault f.start f.text).lexeme.utf8ByteSize =
        f.stop := by
    intro fault f
    rw [← byteSize_toList, LexicalError.report, String.toList_ofList, Finding.stop]
  funext b
  rw [Bool.eq_iff_iff, isReported, covered, List.any_eq_true, List.any_eq_true]
  constructor
  · rintro ⟨e, he, hb⟩
    obtain ⟨y, hy, fault, hfault, rfl⟩ := mem_outsideErrors.mp he
    refine ⟨y, hy, ?_⟩
    rw [hfault, Option.isSome_some, Bool.true_and, ← hsize fault]
    exact hb
  · rintro ⟨y, hy, hb⟩
    rw [Bool.and_assoc, Bool.and_eq_true] at hb
    obtain ⟨fault, hfault⟩ := Option.isSome_iff_exists.mp hb.1
    refine ⟨_, mem_outsideErrors.mpr ⟨y, hy, fault, hfault, rfl⟩, ?_⟩
    have hb := hb.2
    rwa [← hsize fault] at hb

theorem toList_blanked (source : String) :
    (blanked source).toList = blankOut (covered (notesOf source)) 0 source.toList := by
  rw [blanked, String.toList_ofList, isReported_eq]

theorem notesOf_blanked (source : String) : notesOf (blanked source) =
    (notesOf source).filter fun y => (outsideFault? y).isNone := by
  rw [notesOf, toList_blanked]
  exact Scanner.clears 0 source.toList

/-! ### Characters of faults -/

namespace Finding.In

variable {source before after : List Char} {c : Char} {f : Finding}

/-- A character whose first byte is part of a finding is one of its characters. -/
theorem locate (h : f.In source) (hsource : source = before ++ c :: after)
    (hle : f.start ≤ byteSize before) (hlt : byteSize before < f.stop) :
    ∃ front text text', before = front ++ text ∧ f.text = text ++ c :: text' ∧
      f.start = byteSize front := by
  obtain ⟨front, behind, hin, hstart⟩ := h
  rw [hstart] at hle
  rw [stop, hstart] at hlt
  obtain ⟨text, rfl, hrest⟩ : ∃ text, before = front ++ text ∧
      f.text ++ behind = text ++ c :: after := by
    rcases List.append_eq_append_iff.mp (hsource.symm.trans hin) with
      ⟨between, rfl, hrest⟩ | ⟨text, hbefore, hrest⟩
    · cases between with
      | nil => exact ⟨[], by simp, by simpa using hrest.symm⟩
      | cons d between =>
        have hpos := d.utf8Size_pos
        rw [byteSize_append, byteSize_cons] at hle
        omega
    · exact ⟨text, hbefore, hrest⟩
  rw [byteSize_append] at hlt
  rcases List.append_eq_append_iff.mp hrest with ⟨between, rfl, -⟩ | ⟨text', htext, hrest⟩
  · rw [byteSize_append] at hlt
    omega
  · cases text' with
    | nil =>
      rw [htext, List.append_nil] at hlt
      omega
    | cons d text' =>
      obtain ⟨rfl, -⟩ := List.cons.inj hrest
      exact ⟨front, text, text', rfl, htext, hstart⟩

/-- All bytes of a character are part of a finding, or none is. -/
theorem aligned (h : f.In source) (hsource : source = before ++ c :: after) {i : Nat}
    (hi : i < c.utf8Size) : (f.start ≤ byteSize before + i ∧ byteSize before + i < f.stop) ↔
      (f.start ≤ byteSize before ∧ byteSize before < f.stop) := by
  constructor
  · rintro ⟨hle, hlt⟩
    refine ⟨?_, by omega⟩
    obtain ⟨front, behind, hin, hstart⟩ := h
    rw [hstart] at hle ⊢
    rcases List.append_eq_append_iff.mp (hsource.symm.trans hin) with
      ⟨between, rfl, hrest⟩ | ⟨text, rfl, -⟩
    · cases between with
      | nil => simp
      | cons d between =>
        obtain ⟨rfl, -⟩ := List.cons.inj hrest
        rw [byteSize_append, byteSize_cons] at hle
        omega
    · simp
  · rintro ⟨hle, hlt⟩
    obtain ⟨front, text, text', rfl, htext, hstart⟩ := h.locate hsource hle hlt
    refine ⟨by omega, ?_⟩
    rw [stop, htext, hstart, byteSize_append, byteSize_append, byteSize_cons]
    omega

end Finding.In

section

variable {source : String} {before after : List Char} {c : Char}

theorem exists_of_covered (hsource : source.toList = before ++ c :: after)
    (h : covered (notesOf source) (byteSize before) = true) :
    ∃ y ∈ notesOf source, ∃ fault front text text', outsideFault? y = some fault ∧
      before = front ++ text ∧ y.1.text = text ++ c :: text' ∧ y.1.start = byteSize front := by
  obtain ⟨y, hy, hcovers⟩ := List.any_eq_true.mp h
  rw [Bool.and_eq_true, Bool.and_eq_true, decide_eq_true_eq, decide_eq_true_eq] at hcovers
  obtain ⟨⟨hfault, hle⟩, hlt⟩ := hcovers
  obtain ⟨fault, hfault⟩ := Option.isSome_iff_exists.mp hfault
  obtain ⟨front, text, text', hplace⟩ := (Finding.in_of_mem hy).locate hsource hle hlt
  exact ⟨y, hy, fault, front, text, text', hfault, hplace⟩

theorem covered_feed (hsource : source.toList = before ++ '\n' :: after) :
    covered (notesOf source) (byteSize before) = false := by
  by_contra h
  obtain ⟨y, hy, fault, front, text, text', hfault, -, htext, -⟩ :=
    exists_of_covered hsource (Bool.not_eq_false _ ▸ h)
  refine Scanner.feed_not_mem_of_mem_notes y hy (by simp [hfault]) ?_
  simp [htext]

theorem covered_aligned (hsource : source.toList = before ++ c :: after) {i : Nat}
    (hi : i < c.utf8Size) : covered (notesOf source) (byteSize before + i) =
      covered (notesOf source) (byteSize before) := by
  rw [Bool.eq_iff_iff, covered, covered, List.any_eq_true, List.any_eq_true]
  refine exists_congr fun y => and_congr_right fun hy => ?_
  simp only [Bool.and_eq_true, decide_eq_true_eq, and_assoc]
  exact and_congr_right fun _ => (Finding.in_of_mem hy).aligned hsource hi

end

/-! ### Errors that stay -/

/-- The two errors are the same, up to the line they quote and to columns behind characters of more
than one byte that are blanked out. -/
structure LexicalError.Alike (source : String) (e e' : LexicalError) : Prop where
  fault : e.fault = e'.fault
  location : e.location = e'.location
  line : e.position.line = e'.position.line
  char : e.char = e'.char
  lexeme : e.lexeme = e'.lexeme
  column : (∀ d ∈ outsideErrors source, d.position.line = e.position.line →
    d.location < e.location → d.lexeme.utf8ByteSize = d.lexeme.length) →
    e.position.column = e'.position.column

/-- The two items are the same, up to what blanks change in an error. -/
inductive Item.Alike (source : String) : Item → Item → Prop
  | ok (t : Spanned Token) : Alike source (.ok t) (.ok t)
  | error {e e' : LexicalError} : e.Alike source e' → Alike source (.error e) (.error e')

/-- Characters that are blanked out before an error, on its line, have one byte each if those of the
errors there do. -/
theorem utf8Size_of_covered {source : String} {before behind : List Char}
    (hsource : source.toList = before ++ behind)
    (hsingle : ∀ d ∈ outsideErrors source, d.position.line = before.count '\n' + 1 →
      d.location < byteSize before → d.lexeme.utf8ByteSize = d.lexeme.length)
    {before' after : List Char} {c : Char} (hbefore : before = before' ++ c :: after)
    (hline : '\n' ∉ c :: after) (hcovered : covered (notesOf source) (byteSize before') = true) :
    c.utf8Size = 1 := by
  subst hbefore
  have hplace : source.toList = before' ++ c :: (after ++ behind) := by simp [hsource]
  obtain ⟨y, hy, fault, front, text, text', hfault, rfl, htext, hstart⟩ :=
    exists_of_covered hplace hcovered
  have hfeed := Scanner.feed_not_mem_of_mem_notes y hy (by simp [hfault])
  rw [htext] at hfeed
  -- The fault begins on the line of the error: up to there, neither it nor what follows it has a
  -- line feed.
  have hlines : (front ++ text ++ c :: after).count '\n' = front.count '\n' := by
    have hnone : (text ++ c :: after).count '\n' = 0 := by
      refine List.count_eq_zero.mpr fun hmem => ?_
      rcases List.mem_append.mp hmem with hmem | hmem
      · exact hfeed (List.mem_append_left _ hmem)
      · exact hline hmem
    rw [List.append_assoc, List.count_append, hnone, Nat.add_zero]
  have hsame := hsingle _ (mem_outsideErrors.mpr ⟨y, hy, fault, hfault, rfl⟩) ?_ ?_
  · rw [← byteSize_toList, LexicalError.report, String.toList_ofList, String.length_ofList] at hsame
    exact utf8Size_eq_one hsame (by simp [htext])
  · rw [hplace, hstart, List.append_assoc front, LexicalError.report_byteSize, hlines]
  · have hpos := c.utf8Size_pos
    simp only [LexicalError.report, hstart, byteSize_append, byteSize_cons]
    omega

theorem report_alike {source : String} {f : Finding} (h : f.In source.toList)
    (fault : LexicalFault) : (LexicalError.report source.toList fault f.start f.text).Alike source
      (.report (blanked source).toList fault f.start f.text) := by
  obtain ⟨before, after, hsource, hstart⟩ := h
  have hfeed : ∀ before' after', before = before' ++ '\n' :: after' →
      covered (notesOf source) (0 + byteSize before') = false := by
    rintro before' after' rfl
    have hplace : source.toList = before' ++ '\n' :: (after' ++ (f.text ++ after)) := by
      simp [hsource]
    rw [Nat.zero_add]
    exact covered_feed hplace
  have hposition : positionOf source.toList f.start =
      ⟨before.count '\n' + 1, (lastLine before).length + 1⟩ := by
    rw [hsource, hstart, positionOf_byteSize]
  have hposition' : positionOf (blanked source).toList f.start = ⟨before.count '\n' + 1,
      (lastLine (blankOut (covered (notesOf source)) 0 before)).length + 1⟩ := by
    have hsize : byteSize before = byteSize (blankOut (covered (notesOf source)) 0 before) :=
      byteSize_blankOut.symm
    rw [toList_blanked, hsource, blankOut_append, hstart, hsize, positionOf_byteSize,
      count_blankOut hfeed]
  unfold LexicalError.report
  rw [hposition, hposition']
  refine ⟨rfl, rfl, rfl, rfl, rfl, fun hsingle => ?_⟩
  have hlength := length_lastLine_blankOut hfeed fun before' c after' hbefore hline hcovered => by
    rw [Nat.zero_add] at hcovered
    exact utf8Size_of_covered hsource (hstart ▸ hsingle) hbefore hline hcovered
  simp only [hlength]

theorem toItem_alike {source : String} {f : Finding} (h : f.In source.toList) :
    Item.Alike source (f.toItem source.toList) (f.toItem (blanked source).toList) := by
  cases hfound : f.found with
  | ok t =>
    simp only [Finding.toItem, hfound]
    exact .ok _
  | error fault =>
    simp only [Finding.toItem, hfound]
    exact .error (report_alike h fault)

/-- The scan of a source goes on behind a fault outside literals as if there were blanks in its
place. -/
structure FaultsAsBlanks (source : String) : Prop where
  /-- The bytes of the lexemes that are reported outside literals are blanks, and all others stay. -/
  bytes : ∀ b, (blanked source).toUTF8.data[b]? =
    source.toUTF8.data[b]?.map fun byte => if isReported source b then ' '.toUInt8 else byte
  /-- The items are those of the source but for the errors outside literals. -/
  items : List.Forall₂ (Item.Alike source) ((keptOf source).map (·.1)) (tokenize (blanked source))
  /-- The scanner is in a literal behind the same ones. -/
  states : (keptOf source).map (·.2) = (observed (blanked source)).map (·.2)
  /-- There is no error outside literals any more. -/
  clean : outsideErrors (blanked source) = []

theorem faultsAsBlanks (source : String) : FaultsAsBlanks source where
  bytes b := by
    have haligned : ∀ before c after, source.toList = before ++ c :: after → ∀ i < c.utf8Size,
        covered (notesOf source) (0 + byteSize before + i) =
          covered (notesOf source) (0 + byteSize before) := by
      intro before c after hsource i hi
      rw [Nat.zero_add]
      exact covered_aligned hsource hi
    rw [utf8_eq_flatMap, utf8_eq_flatMap, toList_blanked, utf8_blankOut haligned, isReported_eq]
    simp
  items := by
    rw [keptOf_eq, List.map_map, tokenize_eq_map_notesOf, notesOf_blanked,
      List.forall₂_map_left_iff, List.forall₂_map_right_iff]
    refine List.forall₂_same.mpr fun y hy => ?_
    exact toItem_alike (Finding.in_of_mem (List.mem_filter.mp hy).1)
  states := by
    rw [keptOf_eq, observed_eq_map_notesOf, notesOf_blanked, List.map_map, List.map_map]
    rfl
  clean := by
    rw [List.eq_nil_iff_forall_not_mem]
    intro e he
    obtain ⟨y, hy, fault, hfault, -⟩ := mem_outsideErrors.mp he
    rw [notesOf_blanked, List.mem_filter, hfault] at hy
    cases hy.2

end TinyC
