import TinyC.Ir.Text
import TinyC.Numeral.Integer
import TinyC.Proofs.Ir.Typing

/-!
# Lines, words and the texts of values

A text of lines and a line of words can be taken apart again, if the parts have no blank in them. A
value has none in its text if it is legible: a register without blanks, or a quiet constant. Main
statement: a legible value is determined by its type and its text.
-/

namespace TinyC.Ir

/-! ## Parts of a text -/

theorem Unbroken.not_mem {s : String} (h : Unbroken s) {c : Char} (hc : c.isWhitespace = true) :
    c ∉ s.toList := by
  intro hmem
  rw [h c hmem] at hc
  cases hc

/-- Texts joined by a character that none of them has can be told apart again. -/
theorem intercalate_inj {c : Char} {xs ys : List String} (hxs : ∀ s ∈ xs, c ∉ s.toList)
    (hys : ∀ s ∈ ys, c ∉ s.toList) (hx : xs ≠ []) (hy : ys ≠ [])
    (h : (String.singleton c).intercalate xs = (String.singleton c).intercalate ys) : xs = ys := by
  have hlists := congrArg (List.splitOn c ∘ String.toList) h
  simp only [Function.comp_apply, String.toList_intercalate, String.toList_singleton] at hlists
  rw [List.splitOn_intercalate c (by simpa using hxs) (by simpa using hx),
    List.splitOn_intercalate c (by simpa using hys) (by simpa using hy)] at hlists
  exact List.map_injective_iff.mpr (fun _ _ => String.toList_inj.mp) hlists

theorem forall_mem_intercalate {α : Type} {p : α → Prop} {sep : List α} {parts : List (List α)}
    (hsep : ∀ a ∈ sep, p a) (h : ∀ part ∈ parts, ∀ a ∈ part, p a) :
    ∀ a ∈ sep.intercalate parts, p a := by
  induction parts with
  | nil => simp
  | cons part parts ih =>
    obtain ⟨hpart, hparts⟩ := List.forall_mem_cons.mp h
    by_cases hne : parts = []
    · simpa [hne] using hpart
    · rw [List.intercalate_cons_of_ne_nil hne, List.forall_mem_append, List.forall_mem_append]
      exact ⟨⟨hpart, hsep⟩, ih hparts⟩

/-- Lists whose elements can be told apart by their images. -/
theorem eq_of_map_eq {α β : Type} {f : α → β} {s : Set α} (hf : s.InjOn f) {xs ys : List α}
    (hxs : ∀ x ∈ xs, x ∈ s) (hys : ∀ y ∈ ys, y ∈ s) (h : xs.map f = ys.map f) : xs = ys := by
  induction xs generalizing ys with
  | nil => exact (List.map_eq_nil_iff.mp h.symm).symm
  | cons x xs ih =>
    obtain ⟨y, ys, rfl, hx, hrest⟩ := List.map_eq_cons_iff.mp h.symm
    obtain ⟨hxs₁, hxs₂⟩ := List.forall_mem_cons.mp hxs
    obtain ⟨hys₁, hys₂⟩ := List.forall_mem_cons.mp hys
    rw [hf hxs₁ hys₁ hx.symm, ih hxs₂ hys₂ hrest.symm]

/-- A text that consists of the given lines. -/
def unlines (lines : List String) : String := String.join (lines.map (· ++ "\n"))

@[simp] theorem unlines_cons (line : String) (lines : List String) :
    unlines (line :: lines) = line ++ "\n" ++ unlines lines := by
  simp [unlines]

@[simp] theorem unlines_append (lines lines' : List String) :
    unlines (lines ++ lines') = unlines lines ++ unlines lines' := by
  simp [unlines]

@[simp] theorem unlines_nil : unlines [] = "" := rfl

theorem unlines_eq_intercalate (lines : List String) :
    unlines lines = "\n".intercalate (lines ++ [""]) := by
  induction lines with
  | nil => simp
  | cons line lines ih =>
    rw [unlines_cons, ih, List.cons_append, String.intercalate_cons_of_ne_nil (by simp)]

theorem unlines_inj {xs ys : List String} (hxs : ∀ s ∈ xs, '\n' ∉ s.toList)
    (hys : ∀ s ∈ ys, '\n' ∉ s.toList) (h : unlines xs = unlines ys) : xs = ys := by
  rw [unlines_eq_intercalate, unlines_eq_intercalate] at h
  have hends : xs ++ [""] = ys ++ [""] := by
    refine intercalate_inj (c := '\n') ?_ ?_ (by simp) (by simp) h
    · exact List.forall_mem_append.mpr ⟨hxs, by simp⟩
    · exact List.forall_mem_append.mpr ⟨hys, by simp⟩
  exact List.append_cancel_right hends

/-- Texts with an empty line between them. -/
theorem intercalate_unlines (parts : List (List String)) :
    "\n".intercalate (parts.map unlines) = unlines ([""].intercalate parts) := by
  induction parts with
  | nil => rfl
  | cons part parts ih =>
    by_cases hparts : parts = []
    · simp [hparts]
    · rw [List.map_cons, String.intercalate_cons_of_ne_nil (by simpa using hparts), ih,
        List.intercalate_cons_of_ne_nil hparts]
      simp [String.append_assoc]

/-- A line that consists of the given words. -/
abbrev unwords (words : List String) : String := " ".intercalate words

theorem unwords_inj {xs ys : List String} (hxs : ∀ s ∈ xs, Unbroken s) (hys : ∀ s ∈ ys, Unbroken s)
    (hx : xs ≠ []) (hy : ys ≠ []) (h : unwords xs = unwords ys) : xs = ys :=
  intercalate_inj (c := ' ') (fun s hs => (hxs s hs).not_mem rfl)
    (fun s hs => (hys s hs).not_mem rfl) hx hy h

theorem not_mem_unwords {words : List String} (h : ∀ s ∈ words, Unbroken s) :
    '\n' ∉ (unwords words).toList := by
  rw [unwords, String.toList_intercalate]
  refine fun hmem => forall_mem_intercalate (p := (· ≠ '\n')) (by simp) ?_ _ hmem rfl
  simp only [List.forall_mem_map]
  rintro word hword _ hc rfl
  exact (h word hword).not_mem rfl hc

/-! ## Constants -/

theorem digitValue_toUpper {d : Nat} (h : d < 16) : digitValue (Nat.digitChar d).toUpper = d := by
  interval_cases d <;> rfl

/-- The upper-case digits of a number spell it. -/
theorem ofDigits_toUpper_toDigits (n : Nat) :
    ofDigits 16 ((Nat.toDigits 16 n).map Char.toUpper) = n := by
  induction n using Nat.strong_induction_on with
  | _ n ih =>
    rw [Nat.toDigits_eq_if (by decide)]
    split
    · next hn => simpa [ofDigits] using digitValue_toUpper hn
    · next hn =>
      rw [List.map_append, List.map_singleton, ofDigits_append_singleton, ih _ (by omega),
        digitValue_toUpper (Nat.mod_lt _ (by decide))]
      omega

theorem ofDigits_zeros (base k : Nat) (cs : List Char) :
    ofDigits base (List.replicate k '0' ++ cs) = ofDigits base cs := by
  induction k with
  | zero => rfl
  | succ k ih =>
    have hzero : digitValue '0' = 0 := rfl
    simpa [ofDigits, List.replicate_succ, hzero] using ih

theorem hexText_injective : Function.Injective hexText := by
  intro x y h
  simp only [hexText, String.ofList_inj, List.cons_append, List.cons.injEq, true_and] at h
  -- The number is read back from its digits, in front of which zeros do not count.
  have hbits := congrArg (ofDigits 16) h
  rw [ofDigits_zeros, ofDigits_zeros, ofDigits_toUpper_toDigits, ofDigits_toUpper_toDigits] at hbits
  cases x
  cases y
  simpa using BitVec.eq_of_toNat_eq hbits

theorem exists_digitChar {n : Nat} {c : Char} (h : c ∈ Nat.toDigits 16 n) :
    ∃ d < 16, c = Nat.digitChar d := by
  induction n using Nat.strong_induction_on with
  | _ n ih =>
    rw [Nat.toDigits_eq_if (by decide)] at h
    split at h
    · next hn => exact ⟨n, hn, by simpa using h⟩
    · next hn =>
      rcases List.mem_append.mp h with h | h
      · exact ih _ (by omega) h
      · exact ⟨n % 16, Nat.mod_lt _ (by decide), by simpa using h⟩

theorem unbroken_hexText (x : Binary64) : Unbroken (hexText x) := by
  intro c hc
  simp only [hexText, String.toList_ofList, List.mem_append, List.mem_cons, List.mem_replicate,
    List.mem_map] at hc
  rcases hc with (rfl | rfl | ⟨-, rfl⟩) | ⟨c, hc, rfl⟩
  · rfl
  · rfl
  · rfl
  · obtain ⟨d, hd, rfl⟩ := exists_digitChar hc
    interval_cases d <;> rfl

theorem unbroken_integer (n : Int) : Unbroken (toString n) := by
  rw [Int.toString_eq_repr, Int.repr_eq_if]
  split
  · exact unbroken_number _
  · exact unbroken_append.mpr ⟨by decide, unbroken_number _⟩

/-! ## Values -/

/-- The value can be told from its type and its text. -/
def Value.Legible : Value → Prop
  | .int _ | .bool _ => True
  | .float x => x.Quiet
  | .reg r => Unbroken r.name

theorem Ty.text_injective : Function.Injective Ty.text := by
  intro a b h
  cases a <;> cases b <;> first | rfl | exact absurd h (by decide)

@[simp] theorem Ty.unbroken_text (ty : Ty) : Unbroken ty.text := by
  cases ty <;> decide

theorem Reg.eq_of_text {r s : Reg} (hty : r.ty = s.ty) (h : r.text = s.text) : r = s := by
  obtain ⟨name, ty⟩ := r
  obtain ⟨name', ty'⟩ := s
  obtain rfl : ty = ty' := hty
  obtain rfl : name = name' := (String.append_right_inj _).mp h
  rfl

theorem Slot.eq_of_text {r s : Slot} (hty : r.ty = s.ty) (h : r.text = s.text) : r = s := by
  obtain ⟨name, ty⟩ := r
  obtain ⟨name', ty'⟩ := s
  obtain rfl : ty = ty' := hty
  obtain rfl : name = name' := (String.append_right_inj _).mp h
  rfl

theorem toDigits_ne_register (n : Nat) (r : Reg) : Nat.toDigits 10 n ≠ r.text.toList := by
  intro h
  have hmem : '%' ∈ Nat.toDigits 10 n := by
    rw [h]
    simp [Reg.text]
  exact absurd (Nat.isDigit_of_mem_toDigits (by decide) (by decide) hmem) (by decide)

/-- The text of a register starts with a mark, and that of a constant does not. -/
theorem Value.text_ne_register {v : Value} (hv : ∀ r, v ≠ .reg r) (r : Reg) : v.text ≠ r.text := by
  rw [Ne, ← String.toList_inj]
  cases v with
  | int n =>
    rw [text, Int.toString_eq_repr, Int.repr_eq_if]
    split
    · simpa using toDigits_ne_register _ r
    · simp [Reg.text]
  | float x => simp [text, hexText, Reg.text]
  | bool b => cases b <;> simp [text, Reg.text]
  | reg s => exact absurd rfl (hv s)

namespace Value.Legible

variable {v w : Value}

theorem unbroken (h : v.Legible) : Unbroken v.text := by
  cases v with
  | int n => exact unbroken_integer _
  | float x => exact unbroken_hexText _
  | bool b => cases b <;> decide
  | reg r => exact unbroken_append.mpr ⟨by decide, h⟩

theorem text_inj (hv : v.Legible) (hw : w.Legible) (hty : v.ty = w.ty) (h : v.text = w.text) :
    v = w := by
  cases v with
  | reg r =>
    cases w with
    | reg s => rw [Reg.eq_of_text hty h]
    | _ => exact absurd h.symm (text_ne_register (by simp) r)
  | int n =>
    cases w with
    | int m =>
      have hint : n.toInt = m.toInt := by
        simpa [text, Int.toString_eq_repr, Int.repr_inj] using h
      rw [Int32.toInt_inj.mp hint]
    | reg s => exact absurd h (text_ne_register (by simp) s)
    | _ => cases hty
  | float x =>
    cases w with
    | float y => rw [Binary.widen_inj hv hw (hexText_injective h)]
    | reg s => exact absurd h (text_ne_register (by simp) s)
    | _ => cases hty
  | bool b =>
    cases w with
    | bool c => cases b <;> cases c <;> first | rfl | exact absurd h (by decide)
    | reg s => exact absurd h (text_ne_register (by simp) s)
    | _ => cases hty

end Value.Legible

end TinyC.Ir
