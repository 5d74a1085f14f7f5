import TinyC.Proofs.Token.Rules

/-!
# Constants read greedily

The readers of constants take as much of a text as the rules of constants allow, and find the values
that the rules give to what they take.
-/

namespace TinyC

open Computability Lexeme

/-! ## Exponents -/

namespace Lexeme

theorem exponent?_cons (x : Char) (cs : List Char) : exponent? (x :: cs) =
    if among "eE" x then
      let digits := (Rule.splitSign cs).2.takeWhile isDigit
      if digits = [] then none
      else some ⟨x :: ((Rule.splitSign cs).1 ++ digits),
        if (Rule.splitSign cs).1 = ['-'] then -ofDigits 10 digits else ofDigits 10 digits,
        (Rule.splitSign cs).2.dropWhile isDigit⟩
    else none := by
  have hx : among "eE" x = (x = 'e' || x = 'E') := by simp [among]
  rw [hx]
  rfl

theorem splitSign_append (cs : List Char) :
    (Rule.splitSign cs).1 ++ (Rule.splitSign cs).2 = cs := by
  unfold Rule.splitSign
  split <;> rfl

theorem splitSign_fst (cs : List Char) :
    (Rule.splitSign cs).1 = (cs.head?.filter (among "+-")).toList := by
  unfold Rule.splitSign
  split
  · rfl
  · rfl
  · rename_i hplus hminus
    cases cs with
    | nil => rfl
    | cons c cs =>
      have hc : among "+-" c = false := by
        by_contra hc
        rw [Bool.not_eq_false] at hc
        obtain rfl | rfl : c = '+' ∨ c = '-' := by simpa [among] using hc
        · exact hplus cs rfl
        · exact hminus cs rfl
      simp [hc]

theorem splitSign_digit {sign : List Char} (hsign : sign ∈ optional (oneOf (among "+-"))) {d : Char}
    (hd : isDigit d = true) (cs : List Char) :
    Rule.splitSign (sign ++ d :: cs) = (sign, d :: cs) := by
  rcases hsign with rfl | ⟨c, hc, rfl⟩
  · have hsign : (Rule.splitSign (d :: cs)).1 = [] := by
      have hd' : among "+-" d = false := by
        by_contra hsign
        have hnot := eq_false_of_among (P := isDigit) (Bool.not_eq_false _ ▸ hsign) (by decide)
        rw [hd] at hnot
        cases hnot
      simp [splitSign_fst, hd']
    have happend := splitSign_append (d :: cs)
    rw [hsign, List.nil_append] at happend
    exact Prod.ext hsign happend
  · obtain rfl | rfl : c = '+' ∨ c = '-' := by simpa [among] using hc
    · rfl
    · rfl

/-- An exponent begins with its letter. -/
theorem mark_of_exponent? {cs : List Char} {e : Exponent} (h : exponent? cs = some e) :
    ∃ x tail, cs = x :: tail ∧ among "eE" x = true := by
  cases cs with
  | nil => cases h
  | cons x tail =>
    rw [exponent?_cons] at h
    split at h
    · exact ⟨x, tail, rfl, ‹_›⟩
    · cases h

/-- Where no exponent is read there is none. -/
theorem exponent?_eq_none {x : Char} {cs : List Char} (h : exponent? (x :: cs) = none)
    (hx : among "eE" x = true) : Absent (optional (oneOf (among "+-")) * oneOf isDigit) cs := by
  intro v hv hinitial
  obtain ⟨sign, hsign, _, ⟨d, hd, rfl⟩, rfl⟩ := Language.mem_mul.mp hv
  obtain ⟨t, rfl⟩ := hinitial
  rw [exponent?_cons, if_pos hx, List.append_assoc, List.singleton_append,
    splitSign_digit hsign hd] at h
  simp [hd] at h

theorem exponent?_absent {cs : List Char} (h : exponent? cs = none) : Absent Rule.exponent cs := by
  intro v hv hinitial
  obtain ⟨x, sign, ds, hx, hsign, hds, rfl⟩ := Rule.mem_exponent.mp hv
  obtain ⟨hne, hds⟩ := mem_someOf.mp hds
  obtain ⟨d, ds, rfl⟩ := List.exists_cons_of_ne_nil hne
  obtain ⟨t, rfl⟩ := hinitial
  refine exponent?_eq_none h hx (sign ++ [d]) ?_ ⟨ds ++ t, by simp⟩
  exact Language.append_mem_mul hsign ⟨d, hds d List.mem_cons_self, rfl⟩

theorem isDigit_of_mem_takeWhile (cs : List Char) : ∀ d ∈ cs.takeWhile isDigit, isDigit d = true :=
  fun _ => List.mem_takeWhile_imp

/-- Digits end where the letter behind a float constant stands. -/
theorem takeWhile_digits_suffix {ds suffix : List Char} (hds : ∀ d ∈ ds, isDigit d = true)
    (hsuffix : suffix ∈ optional Rule.floatSuffix) : (ds ++ suffix).takeWhile isDigit = ds := by
  rw [List.takeWhile_append_of_pos hds]
  rcases hsuffix with rfl | ⟨c, hc, rfl⟩
  · simp
  · simp [eq_false_of_among (P := isDigit) hc (by decide)]

/-- The characters that make an exponent longer. -/
def inExponent (c : Char) : Bool := isDigit c || among "eE" c

/-- The exponent is all that the text has of one. -/
structure Exponent.Fits (e : Exponent) (cs : List Char) : Prop where
  append : e.text ++ e.rest = cs
  greedy : Greedy (optional Rule.exponent) inExponent cs e.text
  power : ∀ suffix ∈ optional Rule.floatSuffix,
    Rule.powerOf (((e.text ++ suffix).dropWhile (!among "eE" ·)).drop 1) = e.value

theorem Exponent.Fits.of_digits {x : Char} (hx : among "eE" x = true) (cs : List Char)
    (hne : (Rule.splitSign cs).2.takeWhile isDigit ≠ []) :
    Exponent.Fits ⟨x :: ((Rule.splitSign cs).1 ++ (Rule.splitSign cs).2.takeWhile isDigit),
      if (Rule.splitSign cs).1 = ['-'] then -ofDigits 10 ((Rule.splitSign cs).2.takeWhile isDigit)
      else ofDigits 10 ((Rule.splitSign cs).2.takeWhile isDigit),
      (Rule.splitSign cs).2.dropWhile isDigit⟩ (x :: cs) := by
  have hsign := Greedy.optional_oneOf (among "+-") cs
  rw [← splitSign_fst] at hsign
  have happend := splitSign_append cs
  generalize (Rule.splitSign cs).1 = sign, (Rule.splitSign cs).2 = tail at *
  subst happend
  refine ⟨by simp [List.takeWhile_append_dropWhile], ?_, fun suffix hsuffix => ?_⟩
  · have hfront := (Greedy.oneOf hx (sign ++ tail)).mul rfl hsign (.optional (.oneOf _))
      fun c hc => absurd hc (by simp)
    have hdigits : ∀ c, (false || among "+-" c) = true → isDigit c = false := fun c hc =>
      eq_false_of_among hc (by decide)
    have hall := hfront.mul_of_ne (by simp) (Greedy.someOf hne) (.someOf isDigit) hdigits (by simp)
    exact hall.present Rule.begins_exponent (by simp)
  · obtain ⟨d, ds, hds⟩ := List.exists_cons_of_ne_nil hne
    have hdigits := isDigit_of_mem_takeWhile tail
    have hmark : ((x :: (sign ++ tail.takeWhile isDigit)) ++ suffix).dropWhile (!among "eE" ·) =
        x :: (sign ++ (tail.takeWhile isDigit ++ suffix)) := by
      simp [hx]
    have hpower := takeWhile_digits_suffix hdigits hsuffix
    rw [hmark, List.drop_one, List.tail_cons, Rule.powerOf]
    rw [hds] at hdigits hpower ⊢
    rw [List.cons_append, splitSign_digit hsign.mem (hdigits d List.mem_cons_self)]
    dsimp only
    rw [← List.cons_append, hpower]

theorem exponent?_fits {cs : List Char} {e : Exponent} (h : exponent? cs = some e) :
    e.Fits cs ∧ e.text ≠ [] := by
  cases cs with
  | nil => cases h
  | cons x cs =>
    rw [exponent?_cons] at h
    split at h
    · rename_i hx
      dsimp only at h
      split at h
      · cases h
      · rename_i hne
        cases h
        exact ⟨.of_digits hx cs hne, by simp⟩
    · cases h

theorem Exponent.Fits.none {cs : List Char} (h : exponent? cs = none) :
    Exponent.Fits ⟨[], 0, cs⟩ cs where
  append := rfl
  greedy := (Greedy.absent (exponent?_absent h)).weaken (by simp)
  power := by
    rintro suffix (rfl | ⟨c, hc, rfl⟩)
    · rfl
    · simp [eq_false_of_among (P := among "eE") hc (by decide)]
      rfl

/-! ## Float constants -/

theorem floatSuffix_greedy (cs : List Char) :
    Greedy (optional Rule.floatSuffix) (among "fFlL") cs (floatSuffix cs) := by
  have heq : floatSuffix cs = (cs.head?.filter (among "fFlL")).toList := by
    unfold floatSuffix
    split
    · rfl
    · rfl
    · rfl
    · rfl
    · rename_i hf hF hl hL
      cases cs with
      | nil => rfl
      | cons c cs =>
        have hc : among "fFlL" c = false := by
          by_contra hc
          rw [Bool.not_eq_false] at hc
          obtain rfl | rfl | rfl | rfl : c = 'f' ∨ c = 'F' ∨ c = 'l' ∨ c = 'L' := by
            simpa [among] using hc
          · exact hf cs rfl
          · exact hF cs rfl
          · exact hl cs rfl
          · exact hL cs rfl
        simp [hc]
  rw [heq]
  exact .optional_oneOf _ cs

theorem pointed_greedy {whole : List Char} (hwhole : ∀ d ∈ whole, isDigit d = true)
    {cs : List Char} (hne : ¬(whole = [] ∧ cs.takeWhile isDigit = [])) :
    Greedy Rule.pointed isDigit (whole ++ '.' :: cs) (whole ++ '.' :: cs.takeWhile isDigit) := by
  have htake : (whole ++ '.' :: cs).takeWhile isDigit = whole := by
    rw [List.takeWhile_append_of_pos hwhole]
    simp [isDigit]
  have hfront := Greedy.kstar_oneOf isDigit (whole ++ '.' :: cs)
  rw [htake] at hfront
  have hpoint := hfront.mul_of_ne rfl (Greedy.exactly "." cs) (.exactly (P := among ".") rfl)
    (fun c hc => among_eq_false hc (by decide)) (by simp)
  have hall := hpoint.mul (by simp) (Greedy.kstar_oneOf isDigit cs) (R := fun _ => true)
    (fun _ _ _ => rfl) fun c hc => absurd hc (by simp)
  have hword : whole ++ ".".toList ++ cs.takeWhile isDigit = whole ++ '.' :: cs.takeWhile isDigit :=
    List.append_assoc _ _ _
  rw [hword] at hall
  refine (hall.weaken (by simp)).restrict (fun v hv => ?_) (Rule.mem_pointed.mpr
    ⟨whole, cs.takeWhile isDigit, hwhole, isDigit_of_mem_takeWhile cs, hne, rfl⟩)
  obtain ⟨whole', fraction, hwhole', hfraction, -, rfl⟩ := Rule.mem_pointed.mp hv
  have hmem := Language.append_mem_mul (Language.append_mem_mul (mem_kstar_oneOf.mpr hwhole')
    (toList_mem_exactly ".")) (mem_kstar_oneOf.mpr hfraction)
  simpa using hmem

theorem pointFloat_greedy {whole : List Char} (hwhole : ∀ d ∈ whole, isDigit d = true)
    {cs : List Char} (hne : ¬(whole = [] ∧ cs.takeWhile isDigit = [])) {e : Exponent}
    (he : e.Fits (cs.dropWhile isDigit)) :
    Greedy Rule.pointFloat.language (fun _ => true) (whole ++ '.' :: cs)
      (float whole (cs.takeWhile isDigit) (whole ++ '.' :: cs.takeWhile isDigit) e).text := by
  have hbody := pointed_greedy hwhole hne
  have hsplit : whole ++ '.' :: cs =
      (whole ++ '.' :: cs.takeWhile isDigit) ++ cs.dropWhile isDigit := by
    simp [List.takeWhile_append_dropWhile]
  have hpower := hbody.mul hsplit he.greedy (.optional Rule.begins_exponent) fun c hc =>
    among_eq_false hc (by decide)
  have hall := hpower.mul (by rw [hsplit, ← he.append, ← List.append_assoc])
    (floatSuffix_greedy e.rest) (.optional (.oneOf _)) fun c hc =>
      among_eq_false (P := fun c => isDigit c || inExponent c) hc (by decide)
  exact hall.weaken fun _ _ => rfl

theorem exponentFloat_greedy {s : List Char} (hne : s.takeWhile isDigit ≠ []) {e : Exponent}
    (he : exponent? (s.dropWhile isDigit) = some e) :
    Greedy Rule.exponentFloat.language (fun _ => true) s
      (float (s.takeWhile isDigit) [] (s.takeWhile isDigit) e).text := by
  obtain ⟨hfits, hne'⟩ := exponent?_fits he
  have hexponent := hfits.greedy.restrict (M := Rule.exponent) (fun _ => .inr)
    (hfits.greedy.mem.resolve_left hne')
  have hsplit : s = s.takeWhile isDigit ++ s.dropWhile isDigit :=
    List.takeWhile_append_dropWhile.symm
  have hnil : [] ∉ Rule.exponent := by simp [Rule.mem_exponent]
  have hpower := (Greedy.someOf hne).mul_of_ne hsplit hexponent Rule.begins_exponent
    (fun c hc => among_eq_false hc (by decide)) hnil
  have hall := hpower.mul (by rw [List.append_assoc, hfits.append, ← hsplit])
    (floatSuffix_greedy e.rest) (.optional (.oneOf _)) fun c hc => among_eq_false hc (by decide)
  exact hall.weaken fun _ _ => rfl

/-! ## Integer constants -/

theorem integerSuffix_greedy (cs : List Char) :
    Greedy (optional Rule.integerSuffix) (fun _ => true) cs (integerSuffix cs) where
  mem := by
    unfold integerSuffix
    cases h : integerSuffixes.find? fun suffix => cs.take suffix.length = suffix with
    | none => exact .inl rfl
    | some suffix => exact .inr (Rule.mem_integerSuffix.mpr (List.mem_of_find?_eq_some h))
  initial := ⟨_, integerSuffix_append cs⟩
  longest := by
    rintro v (rfl | hv) hinitial
    · exact Nat.zero_le _
    · -- The suffixes are tried from the longest to the shortest.
      have hmem := Rule.mem_integerSuffix.mp hv
      have hsorted : integerSuffixes.Pairwise fun a b => b.length ≤ a.length := by decide
      have htake : decide (cs.take v.length = v) = true := by
        obtain ⟨t, rfl⟩ := hinitial
        simp
      unfold integerSuffix
      cases h : integerSuffixes.find? fun suffix => cs.take suffix.length = suffix with
      | none => exact absurd htake (List.find?_eq_none.mp h v hmem)
      | some suffix =>
        obtain ⟨-, before, after, hsplit, hbefore⟩ := List.find?_eq_some_iff_append.mp h
        rw [hsplit] at hmem hsorted
        rcases List.mem_append.mp hmem with hmem | hmem
        · have hnot := hbefore v hmem
          rw [htake] at hnot
          cases hnot
        · rcases List.mem_cons.mp hmem with rfl | hmem
          · exact Nat.le_refl _
          · exact List.rel_of_pairwise_cons (List.pairwise_append.mp hsorted).2.1 hmem
  shorter _ _ _ _ _ _ := rfl

theorem hexadecimal_greedy {x : Char} {tail : List Char} (hx : among "xX" x = true)
    (hne : tail.takeWhile isHexDigit ≠ []) :
    Greedy (Rule.hexadecimal + someOf isDigit) (fun c => isHexDigit c || among "xX" c)
      ('0' :: x :: tail) ('0' :: x :: tail.takeWhile isHexDigit) := by
  have hzero : Greedy (exactly "0") (fun _ => false) ('0' :: x :: tail) ['0'] :=
    .exactly "0" (x :: tail)
  have hmark := hzero.mul_of_ne rfl (Greedy.oneOf hx tail) (.oneOf _)
    (fun c hc => absurd hc (by simp)) (by simp)
  have hall := hmark.mul_of_ne rfl (Greedy.someOf hne) (.someOf _)
    (fun c hc => absurd hc (by simp)) (by simp)
  refine (hall.weaken fun c hc => by simp [hc]).add fun v hv hinitial => ?_
  -- Of decimal digits there is only the zero in front.
  obtain ⟨hv, hdigits⟩ := mem_someOf.mp hv
  obtain ⟨d, v, rfl⟩ := List.exists_cons_of_ne_nil hv
  obtain ⟨rfl, hbehind⟩ := List.cons_prefix_cons.mp hinitial
  cases v with
  | nil =>
    refine ⟨by simp, fun _ c hc => ?_⟩
    obtain rfl : c = x := by simpa using hc
    simp [hx]
  | cons d v =>
    obtain ⟨rfl, -⟩ := List.cons_prefix_cons.mp hbehind
    have hd := hdigits d (by simp)
    rw [eq_false_of_among (P := isDigit) hx (by decide)] at hd
    cases hd

theorem integerBody_greedy {c : Char} (hc : isDigit c = true) (cs : List Char) :
    Greedy (Rule.hexadecimal + someOf isDigit) (fun c => isHexDigit c || among "xX" c) (c :: cs)
      (integerBody (c :: cs)) := by
  have hdigits : Greedy (someOf isDigit) isDigit (c :: cs) ((c :: cs).takeWhile isDigit) :=
    .someOf (by simp [hc])
  unfold integerBody
  split
  · rename_i x tail heq
    cases heq
    dsimp only
    split
    · rename_i hhex
      obtain ⟨hx, hne⟩ : among "xX" x = true ∧ tail.takeWhile isHexDigit ≠ [] := by
        simpa [among] using hhex
      exact hexadecimal_greedy hx hne
    · rename_i hhex
      refine (Greedy.absent_add ?_ hdigits).weaken fun c hc => by simp [isHexDigit, hc]
      rintro v hv hinitial
      obtain ⟨y, ds, hy, hds, rfl⟩ := Rule.mem_hexadecimal.mp hv
      obtain ⟨t, ht⟩ := hinitial
      cases ht
      obtain ⟨hne, hds⟩ := mem_someOf.mp hds
      have hmark : (x = 'x' || x = 'X') = true := by simpa [among] using hy
      have hnil : (ds ++ t).takeWhile isHexDigit ≠ [] := by
        rw [List.takeWhile_append_of_pos hds]
        simp [hne]
      exact hhex (Bool.and_eq_true_iff.mpr ⟨hmark, decide_eq_true hnil⟩)
  · rename_i hother
    refine (Greedy.absent_add ?_ hdigits).weaken fun c hc => by simp [isHexDigit, hc]
    rintro v hv ⟨t, ht⟩
    obtain ⟨x, ds, -, -, rfl⟩ := Rule.mem_hexadecimal.mp hv
    exact hother x (ds ++ t) ht.symm

theorem integer_greedy {c : Char} (hc : isDigit c = true) (cs : List Char) :
    Greedy Rule.integer.language (fun _ => true) (c :: cs) (integer (c :: cs)).text := by
  have hall := (integerBody_greedy hc cs).mul (integerBody_append (c :: cs)).symm
    (integerSuffix_greedy _) (.optional Rule.begins_integerSuffix) fun c hc =>
      among_eq_false (P := fun c => isHexDigit c || among "xX" c) hc (by decide)
  exact hall.weaken fun _ _ => rfl

/-! ## Values of constants -/

/-- Neither an exponent nor the letter behind a float constant begins with a digit. -/
theorem takeWhile_exponent {exponent suffix : List Char}
    (hexponent : exponent ∈ optional Rule.exponent)
    (hsuffix : suffix ∈ optional Rule.floatSuffix) :
    (exponent ++ suffix).takeWhile isDigit = [] := by
  rcases hexponent with rfl | hexponent
  · exact takeWhile_digits_suffix (List.forall_mem_nil _) hsuffix
  · obtain ⟨x, sign, ds, hx, -, -, rfl⟩ := Rule.mem_exponent.mp hexponent
    simp [eq_false_of_among (P := isDigit) hx (by decide)]

theorem ne_point_of_isDigit {c : Char} (hc : isDigit c = true) : (c ≠ '.' : Bool) = true := by
  refine decide_eq_true ?_
  rintro rfl
  cases hc

theorem ne_point_of_mem {exponent suffix : List Char}
    (hexponent : exponent ∈ optional Rule.exponent)
    (hsuffix : suffix ∈ optional Rule.floatSuffix) {c : Char} (hc : c ∈ exponent ++ suffix) :
    (c ≠ '.' : Bool) = true := by
  rcases List.mem_append.mp hc with hc | hc
  · rcases hexponent with rfl | hexponent
    · cases hc
    · obtain ⟨x, sign, ds, hx, hsign, hds, rfl⟩ := Rule.mem_exponent.mp hexponent
      rcases List.mem_cons.mp hc with rfl | hc
      · exact among_imp (P := (· ≠ '.')) hx (by decide)
      · rcases List.mem_append.mp hc with hc | hc
        · rcases hsign with rfl | ⟨d, hd, rfl⟩
          · cases hc
          · rw [List.mem_singleton.mp hc]
            exact among_imp (P := (· ≠ '.')) hd (by decide)
        · exact ne_point_of_isDigit ((mem_someOf.mp hds).2 c hc)
  · rcases hsuffix with rfl | ⟨d, hd, rfl⟩
    · cases hc
    · rw [List.mem_singleton.mp hc]
      exact among_imp (P := (· ≠ '.')) hd (by decide)

/-- Digits are none of the letters of an exponent. -/
theorem not_mark_of_isDigit {c : Char} (hc : isDigit c = true) : (!among "eE" c) = true := by
  rw [among_eq_false hc (by decide)]
  rfl

theorem floatOf_point {whole fraction suffix : List Char} {e : Exponent} {cs : List Char}
    (hwhole : ∀ d ∈ whole, isDigit d = true) (hfraction : ∀ d ∈ fraction, isDigit d = true)
    (he : e.Fits cs) (hsuffix : suffix ∈ optional Rule.floatSuffix) :
    Rule.floatOf (whole ++ '.' :: fraction ++ e.text ++ suffix) =
      .ofParts whole fraction e.value := by
  have hshape : whole ++ '.' :: fraction ++ e.text ++ suffix =
      whole ++ '.' :: (fraction ++ (e.text ++ suffix)) := by simp
  have hfront : (whole ++ '.' :: (fraction ++ (e.text ++ suffix))).takeWhile isDigit = whole := by
    rw [List.takeWhile_append_of_pos hwhole]
    simp [isDigit]
  have hpoint : (whole ++ '.' :: (fraction ++ (e.text ++ suffix))).dropWhile (· ≠ '.') =
      '.' :: (fraction ++ (e.text ++ suffix)) := by
    rw [List.dropWhile_append_of_pos fun d hd => ne_point_of_isDigit (hwhole d hd)]
    simp
  have hbehind : (fraction ++ (e.text ++ suffix)).takeWhile isDigit = fraction := by
    rw [List.takeWhile_append_of_pos hfraction, takeWhile_exponent he.greedy.mem hsuffix,
      List.append_nil]
  have hpower : (whole ++ '.' :: (fraction ++ (e.text ++ suffix))).dropWhile (!among "eE" ·) =
      (e.text ++ suffix).dropWhile (!among "eE" ·) := by
    rw [List.dropWhile_append_of_pos fun d hd => not_mark_of_isDigit (hwhole d hd),
      List.dropWhile_cons_of_pos rfl,
      List.dropWhile_append_of_pos fun d hd => not_mark_of_isDigit (hfraction d hd)]
  rw [Rule.floatOf, hshape, hfront, hpoint, List.drop_one, List.tail_cons, hbehind, hpower,
    he.power suffix hsuffix]

theorem floatOf_exponent {whole suffix : List Char} {e : Exponent} {cs : List Char}
    (hwhole : ∀ d ∈ whole, isDigit d = true) (he : e.Fits cs)
    (hsuffix : suffix ∈ optional Rule.floatSuffix) :
    Rule.floatOf (whole ++ e.text ++ suffix) = .ofParts whole [] e.value := by
  have hfront : (whole ++ (e.text ++ suffix)).takeWhile isDigit = whole := by
    rw [List.takeWhile_append_of_pos hwhole, takeWhile_exponent he.greedy.mem hsuffix,
      List.append_nil]
  have hpoint : (whole ++ (e.text ++ suffix)).dropWhile (· ≠ '.') = [] := by
    refine List.dropWhile_eq_nil_iff.mpr fun c hc => ?_
    rcases List.mem_append.mp hc with hc | hc
    · exact ne_point_of_isDigit (hwhole c hc)
    · exact ne_point_of_mem he.greedy.mem hsuffix hc
  have hpower : (whole ++ (e.text ++ suffix)).dropWhile (!among "eE" ·) =
      (e.text ++ suffix).dropWhile (!among "eE" ·) :=
    List.dropWhile_append_of_pos fun d hd => not_mark_of_isDigit (hwhole d hd)
  rw [Rule.floatOf, List.append_assoc, hfront, hpoint, hpower, he.power suffix hsuffix]
  rfl

/-- The characters of integer constants, before the suffix. -/
theorem chars_of_integerBody {body : List Char} (hbody : body ∈ Rule.hexadecimal + someOf isDigit) :
    ∀ c ∈ body, (isHexDigit c || among "xX" c) = true := by
  rcases hbody with hbody | hbody
  · obtain ⟨x, ds, hx, hds, rfl⟩ := Rule.mem_hexadecimal.mp hbody
    refine List.forall_mem_cons.mpr ⟨rfl, List.forall_mem_cons.mpr ⟨by simp [hx], ?_⟩⟩
    intro c hc
    simp [(mem_someOf.mp hds).2 c hc]
  · intro c hc
    simp [isHexDigit, (mem_someOf.mp hbody).2 c hc]

theorem takeWhile_integer {body suffix : List Char}
    (hbody : body ∈ Rule.hexadecimal + someOf isDigit)
    (hsuffix : suffix ∈ optional Rule.integerSuffix) :
    (body ++ suffix).takeWhile (!among "uUlLiI" ·) = body := by
  have hnone : ∀ c ∈ body, (!among "uUlLiI" c) = true := by
    intro c hc
    rw [among_eq_false (P := fun c => isHexDigit c || among "xX" c) (chars_of_integerBody hbody c hc)
      (by decide)]
    rfl
  rw [List.takeWhile_append_of_pos hnone]
  rcases hsuffix with rfl | hsuffix
  · simp
  · cases suffix with
    | nil => simp
    | cons c suffix => simp [Rule.begins_integerSuffix c suffix hsuffix]

/-- The suffix of an integer constant does not count. -/
theorem constantValue?_append {body suffix : List Char}
    (hbody : body ∈ Rule.hexadecimal + someOf isDigit)
    (hsuffix : suffix ∈ optional Rule.integerSuffix) :
    constantValue? (body ++ suffix) = integerValue? body := by
  have hkept : ∀ c ∈ body, Kept c := fun c hc =>
    .of_class (p := fun c => isHexDigit c || among "xX" c) (chars_of_integerBody hbody c hc) rfl
  have hmem : suffix ∈ [] :: integerSuffixes := by
    rcases hsuffix with rfl | hsuffix
    · exact List.mem_cons_self
    · exact List.mem_cons_of_mem _ (Rule.mem_integerSuffix.mp hsuffix)
  rw [constantValue?, dropSuffix_append hkept hmem]

end Lexeme

end TinyC
