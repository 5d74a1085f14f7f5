import Mathlib.Computability.Language
import Mathlib.Data.List.TakeWhile

/-!
# Languages of texts

Rules of tokens are put together from classes of characters: one character of a class, many of them,
a fixed text, one rule behind another, one rule or another.

`Greedy` says which word of a language a text begins with, if as much of it is taken as possible.
The parts of a rule can be read greedily one behind the other, provided that what makes a word of
the first part longer cannot begin the next part.
-/

namespace TinyC

open Computability

/-! ## Words -/

/-- One character of a class. -/
def oneOf (P : Char → Bool) : Language Char := {w | ∃ c, P c = true ∧ w = [c]}

/-- The characters of a text, as a class. -/
def among (text : String) (c : Char) : Bool := text.toList.contains c

/-- At least one character of a class. -/
def someOf (P : Char → Bool) : Language Char := oneOf P * (oneOf P)∗

def exactly (text : String) : Language Char := {w | w = text.toList}

def optional (L : Language Char) : Language Char := 1 + L

section

variable {P : Char → Bool} {w : List Char} {L : Language Char}

@[simp] theorem mem_oneOf : w ∈ oneOf P ↔ ∃ c, P c = true ∧ w = [c] := Iff.rfl

@[simp] theorem mem_exactly {text : String} : w ∈ exactly text ↔ w = text.toList := Iff.rfl

theorem toList_mem_exactly (text : String) : text.toList ∈ exactly text := rfl

@[simp] theorem mem_optional : w ∈ optional L ↔ w = [] ∨ w ∈ L := Iff.rfl

@[simp] theorem mem_kstar_oneOf : w ∈ (oneOf P)∗ ↔ ∀ c ∈ w, P c = true := by
  rw [Language.mem_kstar]
  constructor
  · rintro ⟨words, rfl, hwords⟩ c hc
    obtain ⟨word, hword, hc⟩ := List.mem_flatten.mp hc
    obtain ⟨d, hd, rfl⟩ := hwords word hword
    rwa [List.mem_singleton.mp hc]
  · intro hw
    refine ⟨w.map fun c => [c], by simp [← List.flatMap_def], fun word hword => ?_⟩
    obtain ⟨c, hc, rfl⟩ := List.mem_map.mp hword
    exact ⟨c, hw c hc, rfl⟩

theorem mem_oneOf_mul {M : Language Char} :
    w ∈ oneOf P * M ↔ ∃ c w', P c = true ∧ w' ∈ M ∧ w = c :: w' := by
  rw [Language.mem_mul]
  constructor
  · rintro ⟨_, ⟨c, hc, rfl⟩, w', hw', rfl⟩
    exact ⟨c, w', hc, hw', rfl⟩
  · rintro ⟨c, w', hc, hw', rfl⟩
    exact ⟨[c], ⟨c, hc, rfl⟩, w', hw', rfl⟩

@[simp] theorem mem_someOf : w ∈ someOf P ↔ w ≠ [] ∧ ∀ c ∈ w, P c = true := by
  rw [someOf, mem_oneOf_mul]
  constructor
  · rintro ⟨c, w', hc, hw', rfl⟩
    exact ⟨by simp, List.forall_mem_cons.mpr ⟨hc, mem_kstar_oneOf.mp hw'⟩⟩
  · rintro ⟨hne, hw⟩
    obtain ⟨c, w', rfl⟩ := List.exists_cons_of_ne_nil hne
    obtain ⟨hc, hw'⟩ := List.forall_mem_cons.mp hw
    exact ⟨c, w', hc, mem_kstar_oneOf.mpr hw', rfl⟩

end

theorem among_imp {text : String} {P : Char → Bool} {c : Char} (hc : among text c = true)
    (h : text.toList.all P = true) : P c = true :=
  List.all_eq_true.mp h c (by simpa [among] using hc)

theorem eq_false_of_among {text : String} {P : Char → Bool} {c : Char} (hc : among text c = true)
    (h : text.toList.any P = false) : P c = false := by
  have hmem : c ∈ text.toList := by simpa [among] using hc
  simpa using List.any_eq_false.mp h c hmem

theorem among_eq_false {text : String} {P : Char → Bool} {c : Char} (hc : P c = true)
    (h : text.toList.any P = false) : among text c = false := by
  by_contra hmem
  rw [eq_false_of_among (Bool.not_eq_false _ ▸ hmem) h] at hc
  cases hc

/-! ### Finite languages -/

/-- The words of a list. -/
def listed (words : List (List Char)) : Language Char := {w | w ∈ words}

@[simp] theorem mem_listed {words : List (List Char)} {w : List Char} :
    w ∈ listed words ↔ w ∈ words := Iff.rfl

theorem exactly_eq_listed (text : String) : exactly text = listed [text.toList] := by
  ext w
  exact List.mem_singleton.symm

theorem oneOf_among_eq_listed (text : String) :
    oneOf (among text) = listed (text.toList.map fun c => [c]) := by
  ext w
  simp [among, eq_comm]

theorem optional_listed (words : List (List Char)) :
    optional (listed words) = listed ([] :: words) := by
  ext w
  exact List.mem_cons.symm

theorem listed_add (words words' : List (List Char)) :
    listed words + listed words' = listed (words ++ words') := by
  ext w
  exact List.mem_append.symm

theorem listed_mul (words words' : List (List Char)) :
    listed words * listed words' =
      listed (words.flatMap fun w => words'.map fun w' => w ++ w') := by
  ext w
  simp [Language.mem_mul]

/-! ## First characters -/

/-- The words begin with characters of a class, unless they are empty. -/
def Begins (L : Language Char) (P : Char → Bool) : Prop := ∀ c w, c :: w ∈ L → P c = true

namespace Begins

variable {L M : Language Char} {P Q : Char → Bool}

theorem oneOf (P : Char → Bool) : Begins (oneOf P) P := by
  rintro c w ⟨d, hd, hw⟩
  rwa [(List.cons.inj hw).1]

theorem someOf (P : Char → Bool) : Begins (someOf P) P := fun c _ h =>
  (mem_someOf.mp h).2 c List.mem_cons_self

theorem exactly {text : String} (h : text.toList.head?.all P = true) : Begins (exactly text) P := by
  rintro c w hw
  rw [← mem_exactly.mp hw] at h
  simpa using h

theorem optional (h : Begins L P) : Begins (optional L) P := by
  rintro c w (hnil | hw)
  · cases hnil
  · exact h c w hw

/-- What comes first decides, if it is not empty. -/
theorem mul (h : Begins L P) (hne : [] ∉ L) : Begins (L * M) P := by
  intro c w hw
  obtain ⟨a, ha, b, -, hab⟩ := Language.mem_mul.mp hw
  cases a with
  | nil => exact absurd ha hne
  | cons d a =>
    obtain ⟨rfl, -⟩ := List.cons.inj hab
    exact h d a ha

theorem add (h : Begins L P) (h' : Begins M P) : Begins (L + M) P := by
  rintro c w (hw | hw)
  · exact h c w hw
  · exact h' c w hw

end Begins

/-! ## Alphabets -/

/-- The words are made of characters of a class. -/
def Over (L : Language Char) (P : Char → Bool) : Prop := ∀ w ∈ L, ∀ c ∈ w, P c = true

namespace Over

variable {L M : Language Char} {P Q : Char → Bool}

theorem oneOf (h : ∀ c, Q c = true → P c = true) : Over (oneOf Q) P := by
  rintro _ ⟨d, hd, rfl⟩ c hc
  rw [List.mem_singleton.mp hc]
  exact h d hd

theorem kstar_oneOf (h : ∀ c, Q c = true → P c = true) : Over (TinyC.oneOf Q)∗ P := fun _ hw c hc =>
  h c (mem_kstar_oneOf.mp hw c hc)

theorem someOf (h : ∀ c, Q c = true → P c = true) : Over (someOf Q) P := fun _ hw c hc =>
  h c ((mem_someOf.mp hw).2 c hc)

theorem exactly {text : String} (h : text.toList.all P = true) : Over (exactly text) P := by
  rintro _ rfl
  exact List.all_eq_true.mp h

theorem optional (h : Over L P) : Over (optional L) P := by
  rintro w (rfl | hw) c hc
  · cases hc
  · exact h w hw c hc

theorem add (h : Over L P) (h' : Over M P) : Over (L + M) P := by
  rintro w (hw | hw)
  · exact h w hw
  · exact h' w hw

theorem mul (h : Over L P) (h' : Over M P) : Over (L * M) P := by
  intro w hw c hc
  obtain ⟨a, ha, b, hb, rfl⟩ := Language.mem_mul.mp hw
  rcases List.mem_append.mp hc with hc | hc
  · exact h a ha c hc
  · exact h' b hb c hc

end Over

/-! ## Greedy reading -/

/-- The text begins with the word, and with no longer word of the language. Behind a shorter word it
goes on with a character of the class. -/
structure Greedy (L : Language Char) (P : Char → Bool) (s w : List Char) : Prop where
  mem : w ∈ L
  initial : w <+: s
  longest : ∀ v ∈ L, v <+: s → v.length ≤ w.length
  shorter : ∀ v ∈ L, v <+: s → v.length < w.length → ∀ c, v ++ [c] <+: s → P c = true

/-- No word of the language is at the head of the text. -/
def Absent (L : Language Char) (s : List Char) : Prop := ∀ v ∈ L, ¬v <+: s

namespace Greedy

variable {L M : Language Char} {P Q R : Char → Bool} {s w v rest : List Char}

theorem weaken (h : Greedy L P s w) (hPQ : ∀ c, P c = true → Q c = true) : Greedy L Q s w where
  __ := h
  shorter v hv hs hlt c hc := hPQ c (h.shorter v hv hs hlt c hc)

/-- A run of characters ends where the class ends. -/
theorem kstar_oneOf (P : Char → Bool) (s : List Char) : Greedy (oneOf P)∗ P s (s.takeWhile P) where
  mem := mem_kstar_oneOf.mpr fun _ hc => List.mem_takeWhile_imp hc
  initial := List.takeWhile_prefix P
  longest := by
    rintro v hv ⟨t, rfl⟩
    rw [List.takeWhile_append_of_pos (mem_kstar_oneOf.mp hv)]
    simp
  shorter := by
    rintro v hv - hlt c ⟨t, rfl⟩
    by_contra hc
    rw [List.append_assoc, List.takeWhile_append_of_pos (mem_kstar_oneOf.mp hv)] at hlt
    simp [hc] at hlt

theorem restrict (h : Greedy L P s w) (hML : ∀ v ∈ M, v ∈ L) (hw : w ∈ M) : Greedy M P s w where
  mem := hw
  initial := h.initial
  longest v hv := h.longest v (hML v hv)
  shorter v hv := h.shorter v (hML v hv)

theorem someOf (hne : s.takeWhile P ≠ []) : Greedy (someOf P) P s (s.takeWhile P) :=
  (kstar_oneOf P s).restrict (fun _ hv => mem_kstar_oneOf.mpr (mem_someOf.mp hv).2)
    (mem_someOf.mpr ⟨hne, fun _ hc => List.mem_takeWhile_imp hc⟩)

/-- Where all words are of one length there are no shorter ones. -/
theorem of_length (hw : w ∈ L) (hs : w <+: s) (hlength : ∀ v ∈ L, v.length = w.length) :
    Greedy L (fun _ => false) s w where
  mem := hw
  initial := hs
  longest v hv _ := (hlength v hv).le
  shorter v hv _ hlt := absurd (hlength v hv) hlt.ne

theorem exactly (text : String) (rest : List Char) :
    Greedy (exactly text) (fun _ => false) (text.toList ++ rest) text.toList :=
  of_length rfl (List.prefix_append _ _) (by rintro _ rfl; rfl)

theorem oneOf {c : Char} (hc : P c = true) (rest : List Char) :
    Greedy (oneOf P) (fun _ => false) (c :: rest) [c] :=
  of_length ⟨c, hc, rfl⟩ (by simp) (by rintro _ ⟨d, -, rfl⟩; rfl)

theorem present (h : Greedy L P s w) (hL : Begins L Q) (hne : w ≠ []) :
    Greedy (optional L) (fun c => P c || Q c) s w where
  mem := .inr h.mem
  initial := h.initial
  longest := by
    rintro v (rfl | hv) hs
    · simp
    · exact h.longest v hv hs
  shorter := by
    rintro v (rfl | hv) hs hlt c hc
    · -- The word begins where nothing of it is taken.
      obtain ⟨d, w', rfl⟩ := List.exists_cons_of_ne_nil hne
      obtain ⟨t, rfl⟩ := h.initial
      obtain rfl : c = d := by simpa using hc
      simp [hL c w' h.mem]
    · simp [h.shorter v hv hs hlt c hc]

theorem absent (h : Absent L s) : Greedy (optional L) (fun _ => false) s [] where
  mem := .inl rfl
  initial := List.nil_prefix
  longest := by
    rintro v (rfl | hv) hs
    · exact Nat.le_refl _
    · exact absurd hs (h v hv)
  shorter _ _ _ hlt := absurd hlt (Nat.not_lt_zero _)

theorem optional_oneOf (P : Char → Bool) (s : List Char) :
    Greedy (optional (TinyC.oneOf P)) P s (s.head?.filter P).toList := by
  cases s with
  | nil =>
    refine (absent ?_).weaken (by simp)
    rintro _ ⟨c, -, rfl⟩ ⟨t, ht⟩
    cases ht
  | cons c s =>
    cases hc : P c with
    | true =>
      simp only [List.head?_cons, Option.filter_some, hc, if_true, Option.toList_some]
      exact ((oneOf hc s).present (.oneOf P) (by simp)).weaken (by simp)
    | false =>
      simp only [List.head?_cons, Option.filter_some, hc, Bool.false_eq_true, if_false,
        Option.toList_none]
      refine (absent ?_).weaken (by simp)
      rintro _ ⟨d, hd, rfl⟩ ⟨t, ht⟩
      rw [(List.cons.inj ht).1, hc] at hd
      cases hd

/-- Other words do not matter if they are shorter and the text goes on behind them. -/
theorem add (h : Greedy L P s w) (hM : ∀ v ∈ M, v <+: s → v.length ≤ w.length ∧
    (v.length < w.length → ∀ c, v ++ [c] <+: s → P c = true)) : Greedy (L + M) P s w where
  mem := .inl h.mem
  initial := h.initial
  longest := by
    rintro v (hv | hv) hs
    · exact h.longest v hv hs
    · exact (hM v hv hs).1
  shorter := by
    rintro v (hv | hv) hs
    · exact h.shorter v hv hs
    · exact (hM v hv hs).2

theorem absent_add (hL : Absent L s) (h : Greedy M P s w) : Greedy (L + M) P s w := by
  rw [add_comm]
  exact h.add fun v hv hs => absurd hs (hL v hv)

/-- What is read of two parts. Where a shorter word of the first part ends, the text goes on with a
character that does not begin the second part. -/
theorem parts (h : Greedy L P s w) (hs : s = w ++ rest) (hM : Begins M R)
    (hPR : ∀ c, P c = true → R c = false) {x : List Char} (hx : x ∈ L * M) (hinitial : x <+: s) :
    ([] ∈ M ∧ x ∈ L ∧ x.length < w.length) ∨ ∃ b ∈ M, b <+: rest ∧ x = w ++ b := by
  obtain ⟨a, ha, b, hb, rfl⟩ := Language.mem_mul.mp hx
  have hfirst : a <+: s := (List.prefix_append a b).trans hinitial
  rcases (h.longest a ha hfirst).lt_or_eq with hlt | heq
  · cases b with
    | nil => exact .inl ⟨hb, by simpa using ha, by simpa using hlt⟩
    | cons c b =>
      have hnext : a ++ [c] <+: s := by
        refine List.IsPrefix.trans ?_ hinitial
        exact (List.prefix_append_right_inj a).mpr (by simp)
      have hc := hPR c (h.shorter a ha hfirst hlt c hnext)
      rw [hM c b hb] at hc
      cases hc
  · obtain rfl : a = w := List.IsPrefix.eq_of_length
      (List.prefix_of_prefix_length_le hfirst h.initial heq.le) heq
    rw [hs] at hinitial
    exact .inr ⟨b, hb, (List.prefix_append_right_inj a).mp hinitial, rfl⟩

/-- One part behind the other. -/
theorem mul (h : Greedy L P s w) (hs : s = w ++ rest) (h' : Greedy M Q rest v) (hM : Begins M R)
    (hPR : ∀ c, P c = true → R c = false) :
    Greedy (L * M) (fun c => P c || Q c) s (w ++ v) where
  mem := Language.append_mem_mul h.mem h'.mem
  initial := by
    rw [hs]
    exact (List.prefix_append_right_inj w).mpr h'.initial
  longest := by
    intro x hx hinitial
    rw [List.length_append]
    rcases h.parts hs hM hPR hx hinitial with ⟨-, -, hlt⟩ | ⟨b, hb, hb', rfl⟩
    · omega
    · simpa using h'.longest b hb hb'
  shorter := by
    intro x hx hinitial hlt c hc
    rcases h.parts hs hM hPR hx hinitial with ⟨-, hx, hlt⟩ | ⟨b, hb, hb', rfl⟩
    · simp [h.shorter x hx hinitial hlt c hc]
    · rw [hs, List.append_assoc] at hc
      simp [h'.shorter b hb hb' (by simpa using hlt) c ((List.prefix_append_right_inj w).mp hc)]

/-- One part behind the other, where the second one is not left out. -/
theorem mul_of_ne (h : Greedy L P s w) (hs : s = w ++ rest) (h' : Greedy M Q rest v)
    (hM : Begins M R) (hPR : ∀ c, P c = true → R c = false) (hne : [] ∉ M) :
    Greedy (L * M) Q s (w ++ v) where
  __ := h.mul hs h' hM hPR
  shorter := by
    intro x hx hinitial hlt c hc
    rcases h.parts hs hM hPR hx hinitial with ⟨hnil, -, -⟩ | ⟨b, hb, hb', rfl⟩
    · exact absurd hnil hne
    · rw [hs, List.append_assoc] at hc
      exact h'.shorter b hb hb' (by simpa using hlt) c ((List.prefix_append_right_inj w).mp hc)

end Greedy

end TinyC
