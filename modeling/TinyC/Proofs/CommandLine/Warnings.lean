import TinyC.CommandLine
import TinyC.Proofs.Parser.Machine
import TinyC.Proofs.Token.Steps

/-!
# Warnings of a run

The scanner finds the errors that it skips in the order of the source. A run on a source that parses
warns of all of them, once each and in that order, before it reports how lowering failed. There is
one exception: if the outline is not printed and lowering fails, the run warns of none.
-/

namespace TinyC

open Text

/-! ## Skipped errors -/

namespace Scanner

variable {s s' : Scanner} {f : Finding}

/-- The finding is a fault, and the scan goes on behind it. -/
def Skips (f : Finding) : Prop := ∃ fault, f.found = .error fault ∧ fault ≠ .unterminatedString

theorem StepInString.offset_le {start : Nat} {opened ahead : List Char}
    (h : StepInString start opened ahead f s) : start + byteSize opened ≤ s.offset := by
  cases h with
  | close | fault | unterminated =>
    simp only [byteSize_append]
    omega

theorem Step.offset_le (h : Step s f s') (hs : s.WellFormed) : s.offset ≤ s'.offset := by
  cases h with
  | lexeme =>
    simp only
    omega
  | opening _ h =>
    have hle := h.offset_le
    simp only
    omega
  | inString h =>
    rw [hs.2]
    exact h.offset_le

theorem StepInString.skips {start : Nat} {opened ahead : List Char}
    (h : StepInString start opened ahead f s) (hf : Skips f) :
    start + byteSize opened ≤ f.start ∧ f.start < s.offset := by
  obtain ⟨fault, hfound, hfault⟩ := hf
  cases h with
  | close => cases hfound
  | fault body rest c =>
    have hpos := c.utf8Size_pos
    simp only [byteSize_append, byteSize_cons]
    omega
  | unterminated =>
    cases hfound
    exact absurd rfl hfault

/-- A skipped fault lies between where the scanner was and where it goes on. -/
theorem Step.skips (h : Step s f s') (hs : s.WellFormed) (hf : Skips f) :
    s.offset ≤ f.start ∧ f.start < s'.offset := by
  cases h with
  | lexeme _ hne =>
    have hpos := byteSize_pos hne
    simp only
    omega
  | opening _ h =>
    obtain ⟨hle, hlt⟩ := h.skips hf
    refine ⟨?_, hlt⟩
    simp only
    omega
  | inString h =>
    rw [hs.2]
    exact h.skips hf

/-- The faults that a scan skips lie ahead of it, one behind the other. -/
theorem findings_ordered (hs : s.WellFormed) :
    (∀ x ∈ s.findings, Skips x.1 → s.offset ≤ x.1.start) ∧
      s.findings.Pairwise fun x y => Skips x.1 → Skips y.1 → x.1.start < y.1.start := by
  apply findings_induct (P := fun s findings =>
    (∀ x ∈ findings, Skips x.1 → s.offset ≤ x.1.start) ∧
      findings.Pairwise fun x y => Skips x.1 → Skips y.1 → x.1.start < y.1.start) ?_ ?_ hs
  · intro s _ _
    simp
  · intro s f s' hs hstep ih
    refine ⟨fun x hx hskips => ?_, .cons (fun y hy hf hskips => ?_) ih.2⟩
    · rcases List.mem_cons.mp hx with rfl | hx
      · exact (hstep.skips hs hskips).1
      · exact (hstep.offset_le hs).trans (ih.1 x hx hskips)
    · exact (hstep.skips hs hf).2.trans_le (ih.1 y hy hskips)

end Scanner

/-- The error of an item, if the scan goes on behind it. -/
def Item.diagnostic? : Item → Option LexicalError
  | .error e => if e.isRecoverable then some e else none
  | .ok _ => none

/-- The errors of a source that the scanner skips. -/
def recovered (source : String) : List LexicalError := (tokenize source).filterMap Item.diagnostic?

theorem Item.skips_of_diagnostic? {source : List Char} {f : Finding} {e : LexicalError}
    (h : (f.toItem source).diagnostic? = some e) : Scanner.Skips f ∧ e.location = f.start := by
  obtain ⟨start, text, found⟩ := f
  cases found with
  | ok => cases h
  | error fault =>
    simp only [Finding.toItem, Item.diagnostic?] at h
    split at h
    · rename_i hrecoverable
      cases h
      exact ⟨⟨fault, rfl, by simpa [LexicalError.isRecoverable] using! hrecoverable⟩, rfl⟩
    · cases h

/-- Skipped errors come in the order of the source. -/
theorem recovered_ordered (source : String) :
    (recovered source).Pairwise fun d e => d.location < e.location := by
  obtain ⟨-, hordered⟩ := Scanner.findings_ordered (Scanner.wellFormed_start source.toList)
  rw [recovered, tokenize, List.pairwise_filterMap, List.pairwise_map]
  refine hordered.imp fun {x y} hlt d hd e he => ?_
  obtain ⟨hx, hd⟩ := Item.skips_of_diagnostic? hd
  obtain ⟨hy, he⟩ := Item.skips_of_diagnostic? he
  rw [hd, he]
  exact hlt hx hy

/-- A parser that succeeds has come across all errors that the scanner skips. -/
theorem parse_diagnostics {source : String} {parsed : Parsed} (h : parse source = .ok parsed) :
    parsed.diagnostics = recovered source := by
  obtain ⟨hskipped, -, hdiagnostics⟩ := parse_eq_ok_iff.mp h
  rw [hdiagnostics]
  refine List.filterMap_congr fun item hitem => ?_
  cases item with
  | ok t => rfl
  | error e => exact (if_pos (hskipped e hitem)).symm

theorem compile_of_parse {source : String} {parsed : Parsed} (h : parse source = .ok parsed) :
    compile source = parsed.program.toModule.map fun m => ⟨m, recovered source⟩ := by
  simp only [compile, h, bind, Except.bind, ← parse_diagnostics h]
  cases parsed.program.toModule <;> rfl

namespace CommandLine

/-! ## Printing -/

/-- The line of a skipped error. -/
def warning (d : LexicalError) : String := "warning: " ++ d.message ++ "\n"

/-- The line of the error that ends a run. -/
def failure (e : Error) : String := "error: " ++ errorChain e ++ "\n"

/-- Printing appends the text to the error stream, whatever else it does, and comes to an end or
fails. -/
def Writes (x : PrintM Unit) (text : String) (error? : Option Error) : Prop :=
  ∀ out, ∃ stdout, x out =
    match error? with
    | none => .ok () ⟨stdout, out.stderr ++ text⟩
    | some e => .error e ⟨stdout, out.stderr ++ text⟩

namespace Writes

variable {x y : PrintM Unit} {text text' : String} {error? : Option Error} {e : Error}

theorem pure : Writes (pure ()) "" none := fun out =>
  ⟨out.stdout, by simp [Pure.pure, EStateM.pure]⟩

theorem print (line : String) : Writes (print line) "" none := fun out =>
  ⟨out.stdout ++ line, by simp [CommandLine.print, modify, modifyGet, MonadStateOf.modifyGet,
    EStateM.modifyGet]⟩

theorem warn (line : String) : Writes (warn line) line none := fun out => ⟨out.stdout, rfl⟩

theorem throw (e : Error) : Writes (throw e) "" (some e) := fun out =>
  ⟨out.stdout, by simp [MonadExcept.throw, throwThe, MonadExceptOf.throw, EStateM.throw]⟩

theorem bind (h : Writes x text none) (h' : Writes y text' error?) :
    Writes (x >>= fun _ => y) (text ++ text') error? := by
  intro out
  obtain ⟨stdout, hx⟩ := h out
  obtain ⟨stdout', hy⟩ := h' ⟨stdout, out.stderr ++ text⟩
  refine ⟨stdout', ?_⟩
  simp only [Bind.bind, EStateM.bind, hx, hy, String.append_assoc]

theorem forM {α : Type} {f : α → PrintM Unit} {line : α → String}
    (h : ∀ a, Writes (f a) (line a) none) (as : List α) :
    Writes (as.forM f) (String.join (as.map line)) none := by
  induction as with
  | nil => exact pure
  | cons a as ih =>
    rw [List.map_cons, String.join_cons]
    exact (h a).bind ih

end Writes

/-! ## Parts of a run -/

/-- The module is asked for. -/
def Options.wantsModule (o : Options) : Bool := o.ir || !(o.tokens || o.ast)

def printTokens (o : Options) (source : String) : PrintM Unit := do
  if o.tokens then
    (tokenize source).forM fun item => print (itemLine item)
    print "\n"

def printOutline (o : Options) (source : String) : PrintM Unit := do
  if o.ast then
    let parsed ← MonadExcept.ofExcept (parse source)
    warnAll parsed.diagnostics
    print (parsed.program.outline.text 0 ++ "\n\n")

def printModule (o : Options) (source : String) : PrintM Unit := do
  if o.wantsModule then
    let compilation ← MonadExcept.ofExcept (compile source)
    unless o.ast do warnAll compilation.diagnostics
    print compilation.module.text

theorem printAll_eq (o : Options) (source : String) : printAll o source = (do
    printTokens o source
    printOutline o source
    printModule o source) := by
  obtain ⟨tokens, ast, ir, file⟩ := o
  funext out
  cases tokens <;> cases ast <;> cases ir <;>
    simp [printAll, printTokens, printOutline, printModule, Options.wantsModule]

/-- The warnings of all skipped errors of a source. -/
def warnings (source : String) : String := String.join ((recovered source).map warning)

/-- The error that ends a run on a program, if one does. -/
def Options.failure? (o : Options) (p : Program) : Option Error :=
  match p.toModule with
  | .ok _ => none
  | .error e => if o.wantsModule then some e else none

variable {o : Options} {source : String} {parsed : Parsed}

theorem ofExcept_ok_bind {α : Type} (a : α) (f : α → PrintM Unit) :
    (MonadExcept.ofExcept (.ok a) >>= f) = f a := rfl

theorem warnAll_writes (diagnostics : List LexicalError) :
    Writes (warnAll diagnostics) (String.join (diagnostics.map warning)) none :=
  .forM (fun d => .warn (warning d)) diagnostics

theorem printTokens_writes (o : Options) (source : String) :
    Writes (printTokens o source) "" none := by
  unfold printTokens
  split
  · have hlines := Writes.forM (fun item => Writes.print (itemLine item)) (tokenize source)
    have hempty : String.join ((tokenize source).map fun _ => "") = "" := by
      induction tokenize source with
      | nil => rfl
      | cons _ _ ih => simpa using ih
    rw [hempty] at hlines
    exact hlines.bind (.print "\n")
  · exact .pure

theorem printOutline_writes (hparse : parse source = .ok parsed) :
    Writes (printOutline o source) (if o.ast then warnings source else "") none := by
  unfold printOutline
  split
  · have hwarn := (warnAll_writes parsed.diagnostics).bind
      (.print (parsed.program.outline.text 0 ++ "\n\n"))
    rw [parse_diagnostics hparse, String.append_empty] at hwarn
    rw [hparse, ofExcept_ok_bind, parse_diagnostics hparse]
    exact hwarn
  · exact .pure

theorem printModule_writes (hwants : o.wantsModule = false) :
    Writes (printModule o source) "" none := by
  rw [printModule, hwants]
  exact .pure

theorem printModule_writes_of_ok (hparse : parse source = .ok parsed) {m : Ir.Module}
    (hmodule : parsed.program.toModule = .ok m) (hwants : o.wantsModule = true) :
    Writes (printModule o source) (if o.ast then "" else warnings source) none := by
  rw [printModule, hwants, compile_of_parse hparse, hmodule]
  cases o.ast with
  | true => exact .print m.text
  | false =>
    have hprint := (warnAll_writes (recovered source)).bind (.print m.text)
    rw [String.append_empty] at hprint
    exact hprint

theorem printModule_writes_of_error (hparse : parse source = .ok parsed) {e : Error}
    (hmodule : parsed.program.toModule = .error e) (hwants : o.wantsModule = true) :
    Writes (printModule o source) "" (some e) := by
  rw [printModule, hwants, compile_of_parse hparse, hmodule]
  exact .throw e

/-- A run warns of all skipped errors before anything else, or of none if the outline is not asked
for and it fails. -/
theorem printAll_writes (hparse : parse source = .ok parsed)
    (ho : o.ast = true ∨ o.wantsModule = true) :
    Writes (printAll o source)
      (if o.ast = false ∧ (o.failure? parsed.program).isSome then "" else warnings source)
      (o.failure? parsed.program) := by
  have hfront := (printTokens_writes o source).bind (printOutline_writes (o := o) hparse)
  rw [String.empty_append] at hfront
  have hall := fun text error? (h : Writes (printModule o source) text error?) => hfront.bind h
  simp only [bind_assoc, ← printAll_eq] at hall
  cases hwants : o.wantsModule with
  | false =>
    have hast : o.ast = true := ho.resolve_right (by simp [hwants])
    have hnone : o.failure? parsed.program = none := by
      simp only [Options.failure?, hwants]
      split <;> rfl
    simpa [hast, hnone] using hall _ _ (printModule_writes hwants)
  | true =>
    cases hmodule : parsed.program.toModule with
    | ok m =>
      have hnone : o.failure? parsed.program = none := by simp only [Options.failure?, hmodule]
      have hwrites := hall _ _ (printModule_writes_of_ok hparse hmodule hwants)
      cases hast : o.ast <;> simpa [hast, hnone] using hwrites
    | error e =>
      have hsome : o.failure? parsed.program = some e := by
        simp only [Options.failure?, hmodule, hwants, if_true]
      have hwrites := hall _ _ (printModule_writes_of_error hparse hmodule hwants)
      cases hast : o.ast <;> simpa [hast, hsome] using hwrites

theorem stderr_of_writes {text : String} {error? : Option Error}
    (h : Writes (printAll o source) text error?) :
    (runOn o source).output.stderr = text ++ error?.elim "" failure := by
  obtain ⟨stdout, hout⟩ := h ⟨"", ""⟩
  cases error? with
  | none => simp [runOn, hout]
  | some e => simp [runOn, hout, failure, String.append_assoc]

theorem warnings_eq_empty_iff : warnings source = "" ↔ recovered source = [] := by
  unfold warnings
  cases recovered source with
  | nil => simp
  | cons d ds =>
    simp only [List.map_cons, String.join_cons, reduceCtorEq, iff_false, warning]
    simp [String.append_eq_empty_iff]

/-- What a run on a source that parses writes to the error stream, if it shows the outline or the
module. The warnings come first, one for each skipped error and in the order of the source, and then
the error that ends the run. They are complete if the outline is shown, if the run does not fail, or
if there is nothing to warn of; in all other cases there is no warning at all. -/
theorem stderr_runOn (hparse : parse source = .ok parsed)
    (ho : o.ast = true ∨ o.wantsModule = true) :
    (recovered source).Pairwise (fun d e => d.location < e.location) ∧
    (runOn o source).output.stderr =
      (if o.ast = false ∧ (o.failure? parsed.program).isSome then "" else warnings source) ++
        (o.failure? parsed.program).elim "" failure ∧
    ((runOn o source).output.stderr =
        warnings source ++ (o.failure? parsed.program).elim "" failure ↔
      o.ast = true ∨ o.failure? parsed.program = none ∨ recovered source = []) := by
  have hstderr := stderr_of_writes (printAll_writes hparse ho)
  refine ⟨recovered_ordered source, hstderr, ?_⟩
  rw [hstderr, String.append_left_inj]
  split
  · rename_i hdrops
    rw [eq_comm, warnings_eq_empty_iff]
    simp [hdrops.1, Option.isSome_iff_ne_none.mp hdrops.2]
  · rename_i hkeeps
    refine iff_of_true rfl ?_
    cases hast : o.ast with
    | true => exact .inl rfl
    | false => exact .inr (.inl (by simpa [hast] using hkeeps))

/-- The assignment goes to an undeclared variable, between characters that start no token. -/
def undeclared : String := "int main() \x7b @ x = 1; # \x7d"

theorem exists_parse_undeclared : ∃ parsed, parse undeclared = .ok parsed := by
  have hok : (parse undeclared).isOk = true := by decide +kernel
  cases h : parse undeclared with
  | error e =>
    rw [h] at hok
    cases hok
  | ok parsed => exact ⟨parsed, rfl⟩

theorem undeclared_stderr_runOn : ∃ parsed, parse undeclared = .ok parsed ∧
    (recovered undeclared).map (·.char) = ['@', '#'] ∧
    (runOn ⟨true, true, true, none⟩ undeclared).output.stderr =
      warnings undeclared ++
        (Options.failure? ⟨true, true, true, none⟩ parsed.program).elim "" failure := by
  obtain ⟨parsed, hparse⟩ := exists_parse_undeclared
  have hchars : (recovered undeclared).map (·.char) = ['@', '#'] := by decide +kernel
  exact ⟨parsed, hparse, hchars, (stderr_runOn hparse (.inl rfl)).2.2.mpr (.inl rfl)⟩

/-- Without the outline the run warns of nothing. -/
theorem undeclared_stderr_runOn_module : (∃ parsed, parse undeclared = .ok parsed) ∧
    (recovered undeclared).map (·.char) = ['@', '#'] ∧
    (runOn ⟨false, false, false, none⟩ undeclared).output.stderr =
      "error: SemanticError:UndeclaredIdentifier 'x' - assignment to undeclared variable 'x'\n" := by
  refine ⟨exists_parse_undeclared, ?_, ?_⟩ <;> decide +kernel

end CommandLine

end TinyC
