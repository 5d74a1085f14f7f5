import TinyC.Proofs.Numeral.Shortest
import TinyC.Proofs.Token.Constants

/-!
# Spellings of float constants

A float constant is tidy if it has no zeros that could be left out, and an exponent exactly if the
number is small or large enough for one. Main statement: the text of a finite number is tidy and
spells its shortest decimal, and no other text does.

A number other than zero is given by its significant digits and the power of ten of the first one.
Both the text and the tidy constants are described by these.
-/

namespace TinyC

open Lexeme

namespace Decimal

/-! ## Tidy constants -/

/-- The number is written without an exponent: it is zero, or neither small nor large. -/
def IsPlain (d : Decimal) : Prop :=
  d.value = 0 ∨ 10 ^ (-4 : Int) ≤ d.value ∧ d.value < 10 ^ (16 : Int)

theorem Proper.isPlain_iff {ds : List Char} (hds : Proper ds) (power : Int) :
    (ofSignificant ds power).IsPlain ↔ -4 ≤ power ∧ power ≤ 15 := by
  obtain ⟨hlow, hhigh⟩ := hds.bounds power
  have hpos : (ofSignificant ds power).value ≠ 0 :=
    (lt_of_lt_of_le (zpow_pos (by norm_num) _) hlow).ne'
  rw [IsPlain, or_iff_right hpos]
  constructor
  · rintro ⟨hleast, hgreatest⟩
    have hfirst : (-4 : Int) < power + 1 :=
      (zpow_lt_zpow_iff_right₀ (by norm_num)).mp (hleast.trans_lt hhigh)
    have hlast : power < (16 : Int) :=
      (zpow_lt_zpow_iff_right₀ (by norm_num)).mp (hlow.trans_lt hgreatest)
    omega
  · rintro ⟨hleast, hgreatest⟩
    exact ⟨(zpow_le_zpow_right₀ (by norm_num) hleast).trans hlow,
      hhigh.trans_le (zpow_le_zpow_right₀ (by norm_num) (by omega))⟩

/-- Digits on both sides of a point, with no zeros in front or behind but next to the point. -/
structure Trim (whole fraction : List Char) : Prop where
  whole_mem : whole ∈ someOf isDigit
  fraction_mem : fraction ∈ someOf isDigit
  leading : whole.head? = some '0' → whole = ['0']
  trailing : fraction.getLast? = some '0' → fraction = ['0']

/-- A float constant with no characters to spare, and with an exponent exactly if the number is not
plain. -/
inductive Tidy : List Char → Prop
  | plain {whole fraction : List Char} : Trim whole fraction →
    (ofParts whole fraction 0).IsPlain → Tidy (whole ++ '.' :: fraction)
  /-- One digit other than zero, a point only if more digits follow, and a power of ten. -/
  | scientific {first : Char} {more : List Char} {power : Int} :
    isDigit first = true → first ≠ '0' → (∀ d ∈ more, isDigit d = true) →
    more.getLast? ≠ some '0' → ¬(ofParts [first] more power).IsPlain →
    Tidy (first :: (if more = [] then [] else '.' :: more) ++ 'e' :: (toString power).toList)

theorem fits_digits (sign : List Char) (hsign : sign ∈ optional (oneOf (among "+-"))) (n : Nat) :
    Exponent.Fits ⟨'e' :: (sign ++ Nat.toDigits 10 n), if sign = ['-'] then -n else n, []⟩
      ('e' :: (sign ++ Nat.toDigits 10 n)) := by
  have hdigits : ∀ c ∈ Nat.toDigits 10 n, isDigit c = true := fun c => isDigit_of_mem_toDigits
  obtain ⟨d, ds, hds⟩ := List.exists_cons_of_ne_nil (Nat.toDigits_ne_nil (n := n) (b := 10))
  have hsplit : Rule.splitSign (sign ++ Nat.toDigits 10 n) = (sign, Nat.toDigits 10 n) := by
    rw [hds] at hdigits ⊢
    exact splitSign_digit hsign (hdigits d List.mem_cons_self) ds
  have htake := List.takeWhile_eq_self_iff.mpr hdigits
  have hdrop := List.dropWhile_eq_nil_iff.mpr hdigits
  have hfits := Exponent.Fits.of_digits (x := 'e') rfl (sign ++ Nat.toDigits 10 n)
    (by rw [hsplit, htake, hds]; exact List.cons_ne_nil d ds)
  rwa [hsplit, htake, hdrop, ofDigits_toDigits] at hfits

theorem fits_toString (power : Int) :
    Exponent.Fits ⟨'e' :: (toString power).toList, power, []⟩
      ('e' :: (toString power).toList) := by
  rw [Int.toString_eq_repr, Int.repr_eq_if]
  split
  · have hfits := fits_digits [] (.inl rfl) power.toNat
    have hvalue : (power.toNat : Int) = power := by omega
    rw [if_neg (by simp), hvalue] at hfits
    simpa using hfits
  · have hfits := fits_digits ['-'] (.inr ⟨'-', rfl, rfl⟩) (-power).toNat
    have hvalue : -((-power).toNat : Int) = power := by omega
    rw [if_pos rfl, hvalue] at hfits
    simpa using hfits

theorem no_suffix : [] ∈ optional Rule.floatSuffix := .inl rfl

theorem floatOf_plain {whole fraction : List Char} (hwhole : ∀ d ∈ whole, isDigit d = true)
    (hfraction : ∀ d ∈ fraction, isDigit d = true) :
    Rule.floatOf (whole ++ '.' :: fraction) = .ofParts whole fraction 0 := by
  have hfits : Exponent.Fits ⟨[], 0, []⟩ [] := .none rfl
  simpa using floatOf_point hwhole hfraction hfits no_suffix

theorem floatOf_scientific {first : Char} {more : List Char} (hfirst : isDigit first = true)
    (hmore : ∀ d ∈ more, isDigit d = true) (power : Int) :
    Rule.floatOf (first :: (if more = [] then [] else '.' :: more) ++
      'e' :: (toString power).toList) = .ofParts [first] more power := by
  have hwhole : ∀ d ∈ [first], isDigit d = true := List.forall_mem_singleton.mpr hfirst
  by_cases hnil : more = []
  · subst hnil
    simpa using floatOf_exponent hwhole (fits_toString power) no_suffix
  · simpa [hnil] using floatOf_point hwhole hmore (fits_toString power) no_suffix

/-! ## Layout -/

/-- How the text of a number is laid out. -/
def layout (ds : List Char) (power : Int) : List Char :=
  if -4 ≤ power ∧ power ≤ 15 then plainText ds (power + 1) else exponentText ds power

theorem text_eq_layout (d : Decimal) :
    (d.text constantStyle).toList = layout d.significant d.power := by
  have htext : d.text constantStyle = String.ofList
      (if (decide (-4 ≤ d.power) && decide (d.power ≤ 15)) = true then
        plainText d.significant (d.power + 1) else exponentText d.significant d.power) := rfl
  rw [htext, String.toList_ofList, layout]
  simp only [Bool.and_eq_true, decide_eq_true_eq]

/-! ### Digits around a point -/

/-- How digits, the first of which has a power of ten, stand on both sides of a point. -/
inductive Pointed (ds : List Char) (power : Int) : List Char → List Char → Prop
  | below (zeros : Nat) : power + 1 = -zeros →
    Pointed ds power ['0'] (List.replicate zeros '0' ++ ds)
  | inside (whole fraction : List Char) : whole ≠ [] → fraction ≠ [] → ds = whole ++ fraction →
    power + 1 = whole.length → Pointed ds power whole fraction
  | above (zeros : Nat) : power + 1 = ds.length + zeros →
    Pointed ds power (ds ++ List.replicate zeros '0') ['0']

theorem exists_pointed {ds : List Char} (hds : ds ≠ []) (power : Int) :
    ∃ whole fraction, Pointed ds power whole fraction := by
  have hlength : 0 < ds.length := List.length_pos_iff.mpr hds
  by_cases hbelow : power + 1 ≤ 0
  · exact ⟨_, _, .below (-(power + 1)).toNat (by omega)⟩
  · by_cases habove : (ds.length : Int) ≤ power + 1
    · exact ⟨_, _, .above (power + 1 - ds.length).toNat (by omega)⟩
    · refine ⟨ds.take (power + 1).toNat, ds.drop (power + 1).toNat, .inside _ _ ?_ ?_ ?_ ?_⟩
      · exact List.ne_nil_of_length_pos (by rw [List.length_take]; omega)
      · exact List.ne_nil_of_length_pos (by rw [List.length_drop]; omega)
      · exact (List.take_append_drop _ _).symm
      · rw [List.length_take]
        omega

namespace Pointed

variable {ds whole fraction : List Char} {power : Int}

theorem plainText_eq (h : Pointed ds power whole fraction) (hds : ds ≠ []) :
    plainText ds (power + 1) = whole ++ '.' :: fraction := by
  have hlength : 0 < ds.length := List.length_pos_iff.mpr hds
  cases h with
  | below zeros hpower => simp [plainText, hpower]
  | inside whole fraction hwhole hfraction heq hpower =>
    have hwhole : 0 < whole.length := List.length_pos_iff.mpr hwhole
    have hfraction : 0 < fraction.length := List.length_pos_iff.mpr hfraction
    rw [plainText, hpower, if_neg (by omega), Int.toNat_natCast, heq]
    simp [hfraction.ne']
  | above zeros hpower =>
    have hcast : (ds.length : Int) + zeros = (ds.length + zeros : Nat) := by push_cast; rfl
    rw [plainText, hpower, if_neg (by omega), hcast, Int.toNat_natCast]
    simp

theorem value_eq (h : Pointed ds power whole fraction) :
    (ofParts whole fraction 0).value = (ofSignificant ds power).value := by
  have hzero : ofDigits 10 ['0'] = 0 := rfl
  cases h with
  | below zeros hpower =>
    have hdigits : ofDigits 10 (['0'] ++ (List.replicate zeros '0' ++ ds)) = ofDigits 10 ds := by
      rw [ofDigits_append, ofDigits_append, hzero, ofDigits_replicate_zero]
      omega
    have hexponent : (0 : Int) - (List.replicate zeros '0' ++ ds).length =
        power + 1 - ds.length := by
      rw [List.length_append, List.length_replicate]
      omega
    rw [ofParts, hdigits, hexponent]
    rfl
  | inside whole fraction hwhole hfraction heq hpower =>
    have hexponent : (0 : Int) - fraction.length = power + 1 - ds.length := by
      rw [heq, List.length_append]
      omega
    rw [ofParts, ← heq, hexponent]
    rfl
  | above zeros hpower =>
    have hdigits : ofDigits 10 (ds ++ List.replicate zeros '0' ++ ['0']) =
        ofDigits 10 ds * 10 ^ zeros * 10 := by
      rw [ofDigits_append, ofDigits_append, hzero, ofDigits_replicate_zero, List.length_replicate]
      rfl
    have hlast : (0 : Int) - ['0'].length = -1 := rfl
    have hexponent : power + 1 - ds.length = (zeros : Int) := by omega
    rw [value, value, ofParts, ofSignificant, hdigits, hlast, hexponent, zpow_neg_one, zpow_natCast]
    push_cast
    field_simp

theorem trim (h : Pointed ds power whole fraction) (hds : Proper ds) : Trim whole fraction := by
  have hzeros : ∀ n, ∀ d ∈ List.replicate n '0', isDigit d = true := fun n d hd => by
    rw [List.eq_of_mem_replicate hd]
    rfl
  have hzero : ['0'] ∈ someOf isDigit := mem_someOf.mpr ⟨by simp, hzeros 1⟩
  cases h with
  | below zeros hpower =>
    refine ⟨hzero, mem_someOf.mpr ⟨?_, ?_⟩, fun _ => rfl, fun hlast => absurd ?_ hds.last⟩
    · simp [hds.ne_nil]
    · exact List.forall_mem_append.mpr ⟨hzeros zeros, hds.digits⟩
    · rwa [List.getLast?_append_of_ne_nil _ hds.ne_nil] at hlast
  | inside whole fraction hwhole hfraction heq hpower =>
    subst heq
    obtain ⟨hw, hf⟩ := List.forall_mem_append.mp hds.digits
    refine ⟨mem_someOf.mpr ⟨hwhole, hw⟩, mem_someOf.mpr ⟨hfraction, hf⟩,
      fun hhead => absurd ?_ hds.head, fun hlast => absurd ?_ hds.last⟩
    · rwa [List.head?_append_of_ne_nil _ hwhole]
    · rwa [List.getLast?_append_of_ne_nil _ hfraction]
  | above zeros hpower =>
    refine ⟨mem_someOf.mpr ⟨?_, ?_⟩, hzero, fun hhead => absurd ?_ hds.head, fun _ => rfl⟩
    · simp [hds.ne_nil]
    · exact List.forall_mem_append.mpr ⟨hds.digits, hzeros zeros⟩
    · rwa [List.head?_append_of_ne_nil _ hds.ne_nil] at hhead

end Pointed

/-- Behind the zeros in front of a number, proper digits are left. -/
theorem exists_zeros_append {ds : List Char} (hds : ∀ d ∈ ds, isDigit d = true)
    (hne : ofDigits 10 ds ≠ 0) (hlast : ds.getLast? ≠ some '0') :
    ∃ zeros ds', Proper ds' ∧ ds = List.replicate zeros '0' ++ ds' := by
  induction ds with
  | nil => exact absurd rfl hne
  | cons d ds ih =>
    by_cases hd : d = '0'
    · subst hd
      have hnil : ds ≠ [] := by
        rintro rfl
        exact hlast rfl
      obtain ⟨zeros, ds', hds', rfl⟩ := ih (fun c hc => hds c (List.mem_cons_of_mem _ hc))
        hne (by rwa [List.getLast?_cons_of_ne_nil hnil] at hlast)
      exact ⟨zeros + 1, ds', hds', rfl⟩
    · exact ⟨0, d :: ds, ⟨List.cons_ne_nil _ _, hds, by simpa using hd, hlast⟩, rfl⟩

/-- So they are before the zeros behind a number. -/
theorem exists_append_zeros {ds : List Char} (hds : ∀ d ∈ ds, isDigit d = true)
    (hne : ofDigits 10 ds ≠ 0) (hhead : ds.head? ≠ some '0') :
    ∃ zeros ds', Proper ds' ∧ ds = ds' ++ List.replicate zeros '0' := by
  have hnil : ds ≠ [] := by
    rintro rfl
    exact hne rfl
  obtain ⟨zeros, hzeros⟩ := exists_zeros ⟨ofDigits 10 ds, 0⟩
  rw [toDigits_ofDigits hnil hds fun h => absurd h hhead] at hzeros
  exact ⟨zeros, _, proper_significant hne, hzeros⟩

/-- Digits on both sides of a point are those of a number, unless all of them are zeros. -/
theorem Trim.exists_pointed {whole fraction : List Char} (h : Trim whole fraction)
    (hne : ofDigits 10 (whole ++ fraction) ≠ 0) :
    ∃ ds power, Proper ds ∧ Pointed ds power whole fraction := by
  obtain ⟨hwhole, hwdigits⟩ := mem_someOf.mp h.whole_mem
  obtain ⟨hfraction, hfdigits⟩ := mem_someOf.mp h.fraction_mem
  by_cases hhead : whole.head? = some '0'
  · obtain rfl := h.leading hhead
    have hvalue : ofDigits 10 fraction ≠ 0 := hne
    have hlast : fraction.getLast? ≠ some '0' := by
      intro hlast
      rw [h.trailing hlast] at hvalue
      exact hvalue rfl
    obtain ⟨zeros, ds, hds, rfl⟩ := exists_zeros_append hfdigits hvalue hlast
    exact ⟨ds, -zeros - 1, hds, .below zeros (by omega)⟩
  · by_cases hlast : fraction.getLast? = some '0'
    · obtain rfl := h.trailing hlast
      have hnumber : ofDigits 10 whole ≠ 0 := by
        intro hzero
        rw [ofDigits_append, hzero] at hne
        exact hne rfl
      obtain ⟨zeros, ds, hds, rfl⟩ := exists_append_zeros hwdigits hnumber hhead
      exact ⟨ds, ds.length + zeros - 1, hds, .above zeros (by omega)⟩
    · have hds : Proper (whole ++ fraction) := {
        ne_nil := by simp [hwhole]
        digits := List.forall_mem_append.mpr ⟨hwdigits, hfdigits⟩
        head := by rwa [List.head?_append_of_ne_nil _ hwhole]
        last := by rwa [List.getLast?_append_of_ne_nil _ hfraction] }
      exact ⟨_, whole.length - 1, hds, .inside _ _ hwhole hfraction rfl (by omega)⟩

/-! ## Texts of numbers -/

theorem isPlain_congr {d d' : Decimal} (h : d.value = d'.value) : d.IsPlain ↔ d'.IsPlain := by
  rw [IsPlain, IsPlain, h]

theorem exponentText_cons (first : Char) (more : List Char) (power : Int) :
    exponentText (first :: more) power =
      first :: (if more = [] then [] else '.' :: more) ++ 'e' :: (toString power).toList := by
  cases more <;> simp [exponentText]

theorem ofParts_singleton (first : Char) (more : List Char) (power : Int) :
    ofParts [first] more power = ofSignificant (first :: more) power := by
  have hexponent : power - more.length = power + 1 - (first :: more).length := by
    rw [List.length_cons]
    push_cast
    ring
  rw [ofParts, ofSignificant, hexponent]
  rfl

/-- What is laid out is tidy, and spells the number. -/
theorem Proper.tidy_layout {ds : List Char} (hds : Proper ds) (power : Int) :
    Tidy (layout ds power) ∧
      (Rule.floatOf (layout ds power)).value = (ofSignificant ds power).value := by
  have hplain := hds.isPlain_iff power
  by_cases h : -4 ≤ power ∧ power ≤ 15
  · obtain ⟨whole, fraction, hpointed⟩ := exists_pointed hds.ne_nil power
    have htrim := hpointed.trim hds
    rw [layout, if_pos h, hpointed.plainText_eq hds.ne_nil,
      floatOf_plain (mem_someOf.mp htrim.whole_mem).2 (mem_someOf.mp htrim.fraction_mem).2]
    exact ⟨.plain htrim ((isPlain_congr hpointed.value_eq).mpr (hplain.mpr h)), hpointed.value_eq⟩
  · obtain ⟨first, more, hfirst, hne, rfl⟩ := hds.exists_cons
    have hmore : ∀ d ∈ more, isDigit d = true := fun d hd => hds.digits d (.tail _ hd)
    have hlast : more.getLast? ≠ some '0' := by
      intro hlast
      have hnil : more ≠ [] := by
        rintro rfl
        cases hlast
      exact hds.last (by rw [List.getLast?_cons_of_ne_nil hnil, hlast])
    rw [layout, if_neg h, exponentText_cons, floatOf_scientific hfirst hmore, ofParts_singleton]
    exact ⟨.scientific hfirst hne hmore hlast (by rw [ofParts_singleton, hplain]; exact h), rfl⟩

/-- A tidy constant that does not spell zero is laid out. -/
theorem Tidy.exists_layout {w : List Char} (h : Tidy w) (hne : (Rule.floatOf w).digits ≠ 0) :
    ∃ ds power, Proper ds ∧ w = layout ds power ∧
      (Rule.floatOf w).value = (ofSignificant ds power).value := by
  cases h with
  | @plain whole fraction htrim hplain =>
    have hfloat := floatOf_plain (mem_someOf.mp htrim.whole_mem).2
      (mem_someOf.mp htrim.fraction_mem).2
    rw [hfloat] at hne ⊢
    obtain ⟨ds, power, hds, hpointed⟩ := htrim.exists_pointed hne
    have hbounds := (hds.isPlain_iff power).mp ((isPlain_congr hpointed.value_eq).mp hplain)
    refine ⟨ds, power, hds, ?_, hpointed.value_eq⟩
    rw [layout, if_pos hbounds, hpointed.plainText_eq hds.ne_nil]
  | @scientific first more power hfirst hzero hmore hlast hplain =>
    have hds : Proper (first :: more) := {
      ne_nil := List.cons_ne_nil _ _
      digits := List.forall_mem_cons.mpr ⟨hfirst, hmore⟩
      head := by simpa using hzero
      last := by
        cases more with
        | nil => simpa using hzero
        | cons c more => rwa [List.getLast?_cons_cons] }
    rw [ofParts_singleton, hds.isPlain_iff] at hplain
    refine ⟨first :: more, power, hds, ?_, ?_⟩
    · rw [layout, if_neg hplain, exponentText_cons]
    · rw [floatOf_scientific hfirst hmore, ofParts_singleton]

/-- A tidy constant that spells zero. -/
theorem Tidy.eq_zero {w : List Char} (h : Tidy w) (hzero : (Rule.floatOf w).digits = 0) :
    w = "0.0".toList := by
  cases h with
  | @plain whole fraction htrim hplain =>
    obtain ⟨hwhole, hwdigits⟩ := mem_someOf.mp htrim.whole_mem
    obtain ⟨hfraction, hfdigits⟩ := mem_someOf.mp htrim.fraction_mem
    rw [floatOf_plain hwdigits hfdigits] at hzero
    have hall := eq_zero_of_ofDigits (List.forall_mem_append.mpr ⟨hwdigits, hfdigits⟩) hzero
    have hhead : whole.head? = some '0' := by
      rw [List.head?_eq_some_head hwhole,
        hall _ (List.mem_append_left _ (List.head_mem hwhole))]
    have hlast : fraction.getLast? = some '0' := by
      rw [List.getLast?_eq_some_getLast hfraction,
        hall _ (List.mem_append_right _ (List.getLast_mem hfraction))]
    rw [htrim.leading hhead, htrim.trailing hlast]
    rfl
  | @scientific first more power hfirst hne hmore hlast hplain =>
    rw [floatOf_scientific hfirst hmore] at hzero
    exact absurd (.inl (by simp [value, hzero])) hplain

theorem text_of_isPositive {x : Binary64} (hx : x.IsPositive) :
    x.text.toList = layout (shortest x).significant (shortest x).power := by
  have hfinite := hx.finite
  have hnan : x.isNaN = false := by
    rw [Bool.eq_false_iff, Ne, x.isNaN_iff_magnitude]
    omega
  have hinfinite : x.isInfinite = false := by
    rw [Bool.eq_false_iff, Ne, x.isInfinite_iff_magnitude]
    omega
  have hzero : x.isZero = false := by
    rw [Bool.eq_false_iff, Ne, x.isZero_iff_magnitude]
    exact hx.pos.ne'
  rw [← text_eq_layout]
  simp [Binary.text, hnan, hinfinite, hzero, hx.sign]

/-- A positive number is written as its shortest decimal. -/
theorem text_iff_of_isPositive {x : Binary64} (hx : x.IsPositive) {w : List Char} :
    x.text.toList = w ↔ Tidy w ∧ (Rule.floatOf w).IsShortest x := by
  have hshortest := isShortest_shortest hx
  have hds := proper_significant (digits_ne_zero hx hshortest.reads)
  rw [text_of_isPositive hx]
  constructor
  · rintro rfl
    obtain ⟨htidy, hvalue⟩ := hds.tidy_layout (shortest x).power
    rw [value_ofSignificant] at hvalue
    exact ⟨htidy, hshortest.congr hx hvalue.symm⟩
  · rintro ⟨htidy, hw⟩
    obtain ⟨ds, power, hproper, rfl, hvalue⟩ := htidy.exists_layout (digits_ne_zero hx hw.reads)
    -- The constant and the decimal that was found stand for one number.
    obtain ⟨hsignificant, hpower⟩ := significant_power_eq hproper.ofDigits_ne_zero
      (hvalue.symm.trans (hw.value_unique hshortest))
    rw [(hproper.significant_power power).1] at hsignificant
    rw [(hproper.significant_power power).2] at hpower
    rw [hsignificant, hpower]

theorem toBinary64_eq_zero {d : Decimal} (h : d.digits = 0) : d.toBinary64 = .zero := by
  rw [toBinary64, if_pos h]
  rfl

theorem significant_eq_nil_iff {d : Decimal} : d.significant = [] ↔ d.digits = 0 := by
  constructor
  · intro hnil
    by_contra hne
    exact (proper_significant hne).ne_nil hnil
  · intro hzero
    rw [significant, hzero, Nat.toDigits_zero]
    rfl

theorem isShortest_zero_iff {d : Decimal} : d.IsShortest .zero ↔ d.digits = 0 := by
  constructor
  · intro h
    have hnil : significant ⟨0, 0⟩ = [] := significant_eq_nil_iff.mpr rfl
    have hfewest := h.fewest ⟨0, 0⟩ (toBinary64_eq_zero rfl)
    rw [hnil, List.length_nil, Nat.le_zero, List.length_eq_zero_iff] at hfewest
    exact significant_eq_nil_iff.mp hfewest
  · intro hzero
    have hnil := significant_eq_nil_iff.mpr hzero
    refine ⟨toBinary64_eq_zero hzero, fun d' _ => ?_, fun d' _ hlength => ?_⟩
    · rw [hnil]
      exact Nat.zero_le _
    · rw [hnil, List.length_nil, List.length_eq_zero_iff, significant_eq_nil_iff] at hlength
      have hvalue : d.value = d'.value := by rw [value, value, hzero, hlength]; simp
      exact .inr ⟨by rw [hvalue], hvalue.ge⟩

/-- So is zero. -/
theorem text_zero_iff {w : List Char} :
    (Binary.zero : Binary64).text.toList = w ↔ Tidy w ∧ (Rule.floatOf w).IsShortest .zero := by
  have htext : (Binary.zero : Binary64).text = "0.0" := by decide +kernel
  rw [htext, isShortest_zero_iff]
  constructor
  · rintro rfl
    have htrim : Trim ['0'] ['0'] := ⟨by simp; rfl, by simp; rfl, fun _ => rfl, fun _ => rfl⟩
    have hzero : (ofParts ['0'] ['0'] 0).digits = 0 := rfl
    exact ⟨.plain htrim (.inl (by rw [value, hzero]; simp)), rfl⟩
  · rintro ⟨htidy, hzero⟩
    exact (htidy.eq_zero hzero).symm

/-- The text of a finite number is the one tidy constant that spells its shortest decimal. -/
theorem text_toBinary64_iff (d : Decimal) (h : d.toBinary64.isInfinite = false) {w : List Char} :
    d.toBinary64.text.toList = w ↔ Tidy w ∧ (Rule.floatOf w).IsShortest d.toBinary64 := by
  obtain ⟨pattern, hle, hpattern⟩ := d.exists_pattern
  have hmagnitude : d.toBinary64.magnitude = pattern := by
    rw [hpattern, Binary.magnitude_ofMagnitude (Format.lt_signUnit_of_le_infinity hle)]
  rcases Nat.eq_zero_or_pos pattern with rfl | hpos
  · rw [hpattern]
    exact text_zero_iff
  · have hne : pattern ≠ Format.binary64.infinity := by
      rintro rfl
      rw [d.toBinary64.isInfinite_iff_magnitude.mpr hmagnitude] at h
      cases h
    exact text_iff_of_isPositive ⟨d.isNegative_toBinary64, by omega, by omega⟩

theorem text_of_isInfinite (d : Decimal) (h : d.toBinary64.isInfinite = true) :
    d.toBinary64.text = "inf" := by
  have hnan : d.toBinary64.isNaN = false := by
    rw [Bool.eq_false_iff, Ne, d.toBinary64.isNaN_iff_magnitude,
      d.toBinary64.isInfinite_iff_magnitude.mp h]
    exact Nat.lt_irrefl _
  simp [Binary.text, hnan, h, d.isNegative_toBinary64]

end Decimal

end TinyC
