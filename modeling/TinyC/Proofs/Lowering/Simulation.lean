import TinyC.Proofs.Lowering.Expression

/-!
# Simulation

A state of lowering stands for a place in the finished function: the end of what its current block
holds so far. `Simulates` compares what runs between two places do to the variables with a relation
between stores. It says both that every pair of related stores is reached, and that a run that goes
on to return has passed through related stores.

Jumps are counted, so that what a loop does can be shown by induction on how many are left.
-/

namespace TinyC

open Ir Lowering

/-- A finished function with its variables, each of which has a slot of its own. -/
structure Image where
  function : Function
  symbols : SymbolTable
  names : function.blockNames.Nodup
  slots : ∀ {x y a b}, symbols.lookup? x = some a → symbols.lookup? y = some b →
    a.slot.name = b.slot.name → x = y
  typed : ∀ {x a}, symbols.lookup? x = some a → a.slot.ty = a.ty.slotTy

namespace Image

variable {I : Image} {P : Primitives} {σ σ' τ : Lowering} {n : Nat} {st : Ir.State} {o : Ending}

/-- The values of the variables. -/
def view (I : Image) (st : Ir.State) : Store := I.symbols.view st.memory

/-- The function is what comes of a state of lowering. -/
structure Holds (I : Image) (σ : Lowering) : Prop where
  grows : σ.builder.function.Grows I.function
  symbols_le : σ.symbols.Le I.symbols

theorem Holds.of_reach (hI : I.Holds σ') (h : Reach σ σ') : I.Holds σ where
  grows := h.grows.trans hI.grows
  symbols_le name symbol hname := hI.symbols_le name symbol (h.symbols_le name symbol hname)

theorem Holds.of_close {t : Terminator} (hI : I.Holds (σ.close t)) (hσ : σ.Open) : I.Holds σ where
  grows := (Builder.Open.grows_close hσ t).trans hI.grows
  symbols_le := hI.symbols_le

/-- Code that computes changes no variable. -/
theorem view_of_computes {code : List Instr} {st' : Ir.State} (h : σ.Computes code)
    (hexec : exec P code st = some st') : I.view st' = I.view st := by
  simp only [view, (h.exec_frame hexec).1]

/-- A store to the slot of a variable sets it and no other. -/
theorem view_write {x : String} {a : Symbol} (hx : I.symbols.lookup? x = some a) {d : Datum}
    (hd : d.ty = a.slot.ty) : I.view (st.write a.slot d) = (I.view st).set x d.val := by
  funext y
  by_cases hyx : y = x
  · subst hyx
    simp [view, SymbolTable.view, hx, Ir.State.write, Store.set, ← hd]
  · simp only [view, SymbolTable.view, Ir.State.write, Store.set, Function.update_of_ne hyx]
    cases hy : I.symbols.lookup? y with
    | none => rfl
    | some b =>
      have hne : b.slot.name ≠ a.slot.name := fun hname => hyx (I.slots hy hx hname)
      simp [hne]

/-- A variable holds a value of its type. -/
theorem view_eq_some {x : String} {a : Symbol} (hx : I.symbols.lookup? x = some a) (st : Ir.State) :
    ∃ old, I.view st x = some old ∧ old.ty = a.ty := by
  refine ⟨(a.slot.ty.read (st.memory a.slot.name)).val, by simp [view, SymbolTable.view, hx], ?_⟩
  rw [I.typed hx]
  cases a.ty <;> rfl

/-- The views of memories are the choices of a value of its type for every variable. -/
theorem exists_view_iff {S : Store} : (∃ memory, I.symbols.view memory = S) ↔
    ∀ x, (S x).map Val.ty = (I.symbols.lookup? x).map Symbol.ty := by
  classical
  constructor
  · rintro ⟨memory, rfl⟩ x
    cases hx : I.symbols.lookup? x with
    | none => simp [SymbolTable.view, hx]
    | some a =>
      obtain ⟨old, hold, hty⟩ := I.view_eq_some hx (.initial memory)
      rw [show I.symbols.view memory x = some old from hold, Option.map_some, hty]
      rfl
  intro hS
  -- Each name of a slot goes back to one variable, whose value is put there.
  refine ⟨fun name => if h : ∃ x a, I.symbols.lookup? x = some a ∧ a.slot.name = name then
    (S h.choose).elim 0 fun v => v.datum.word else 0, ?_⟩
  funext x
  have hx := hS x
  cases hlookup : I.symbols.lookup? x with
  | none =>
    rw [hlookup] at hx
    have hnone : S x = none := by simpa using hx
    simp [SymbolTable.view, hlookup, hnone]
  | some a =>
    rw [hlookup] at hx
    obtain ⟨v, hv, hty⟩ := Option.map_eq_some_iff.mp hx
    have hslot : ∃ y b, I.symbols.lookup? y = some b ∧ b.slot.name = a.slot.name :=
      ⟨x, a, hlookup, rfl⟩
    have hchoose : hslot.choose = x := by
      obtain ⟨b, hb, hname⟩ := hslot.choose_spec
      exact I.slots hb hlookup hname
    have hread : a.slot.ty.read v.datum.word = v.datum := by
      rw [I.typed hlookup, ← hty, ← Val.ty_datum, Datum.read_word]
    simp [SymbolTable.view, hlookup, hslot, hchoose, hv, hread]

/-! ## Places -/

/-- From the place of a state of lowering on, the function returns after `n` jumps. -/
def ReturnsAt (I : Image) (P : Primitives) (σ : Lowering) (n : Nat) (st : Ir.State) (o : Ending) :
    Prop :=
  ∃ i blk blk' rest, σ.builder.At i blk ∧ I.function.blocks[i]? = some blk' ∧
    blk'.instrs = blk.instrs ++ rest ∧ I.function.Returns P n rest blk'.terminator st o

theorem returnsAt_iff {i : Nat} {blk blk' : Block} {rest : List Instr} (hat : σ.builder.At i blk)
    (hblk' : I.function.blocks[i]? = some blk') (hrest : blk'.instrs = blk.instrs ++ rest) :
    I.ReturnsAt P σ n st o ↔ I.function.Returns P n rest blk'.terminator st o := by
  constructor
  · rintro ⟨i₁, blk₁, blk₁', rest₁, hat₁, hblk₁', hrest₁, h⟩
    -- The place, the finished block and what is left of it are all determined.
    obtain ⟨rfl, rfl⟩ := hat.unique hat₁
    obtain rfl := Option.some.inj (hblk'.symm.trans hblk₁')
    obtain rfl := List.append_cancel_left (hrest.symm.trans hrest₁)
    exact h
  · exact fun h => ⟨i, blk, blk', rest, hat, hblk', hrest, h⟩

/-- Between two places of a block the code between them runs. -/
theorem returnsAt_code {i : Nat} {blk blk' : Block} {code : List Instr} (hat : σ.builder.At i blk)
    (hat' : σ'.builder.At i blk') (hcode : blk'.instrs = blk.instrs ++ code) (hI : I.Holds σ') :
    I.ReturnsAt P σ n st o ↔ ∃ st', exec P code st = some st' ∧ I.ReturnsAt P σ' n st' o := by
  obtain ⟨final, hfinal, hgrows⟩ := hI.grows i blk' hat'.block
  obtain ⟨rest, hrest⟩ := hgrows.instrs
  have hrest' : final.instrs = blk.instrs ++ (code ++ rest) := by
    rw [← hrest, hcode, List.append_assoc]
  rw [returnsAt_iff hat hfinal hrest', Function.Returns.append_iff]
  refine exists_congr fun st' => and_congr_right fun _ => ?_
  exact (returnsAt_iff hat' hfinal hrest.symm).symm

/-- In a state, control passes from one place to another by a jump. -/
def Passes (I : Image) (P : Primitives) (σ τ : Lowering) (st : Ir.State) : Prop :=
  ∀ n o, I.ReturnsAt P σ n st o ↔ ∃ m, n = m + 1 ∧ I.ReturnsAt P τ m st o

/-- A terminator passes control to the start of the block it names. -/
theorem passes_of_next? {t : Terminator} {j : Nat} {blk : Block} (hσ : σ.Open)
    (hI : I.Holds (σ.close t)) (hnext : t.next? st = some blk.name) (hat : τ.builder.At j blk)
    (hempty : blk.instrs = []) (hI' : I.Holds τ) : I.Passes P σ τ st := by
  intro n o
  obtain ⟨i, cur, hcur, -⟩ := hσ
  obtain ⟨last, hlast, hgrows⟩ := hI.grows i _ (hcur.close t).block
  -- The block that ends here is sealed, so it is the same in the finished function.
  obtain rfl := hgrows.of_sealed rfl
  obtain ⟨target, htarget, hgrows'⟩ := hI'.grows j blk hat.block
  have hblock : I.function.block? blk.name = some target := by
    rw [← hgrows'.name]
    exact Function.block?_eq_some I.names htarget
  rw [returnsAt_iff hcur hlast (List.append_nil _).symm,
    Function.Returns.nil_iff_of_next? hnext hblock]
  refine exists_congr fun m => and_congr_right fun _ => ?_
  have hwhole : target.instrs = blk.instrs ++ target.instrs := by rw [hempty, List.nil_append]
  rw [returnsAt_iff hat htarget hwhole]

end Image

/-! ## Relations between stores -/

/-- Runs between two places do what the relation says. -/
structure Simulates (I : Image) (P : Primitives) (R : Store → Store → Prop) (σ σ' : Lowering) :
    Prop where
  forward : ∀ st S', R (I.view st) S' → ∃ st', I.view st' = S' ∧
    ∀ n o, I.ReturnsAt P σ' n st' o → ∃ n', I.ReturnsAt P σ n' st o
  backward : ∀ n st o, I.ReturnsAt P σ n st o → ∃ st' n', n' ≤ n ∧
    R (I.view st) (I.view st') ∧ I.ReturnsAt P σ' n' st' o

namespace Simulates

variable {I : Image} {P : Primitives} {R R' : Store → Store → Prop} {σ σ' σ'' τ τ' : Lowering}

theorem refl (σ : Lowering) : Simulates I P (fun S S' => S' = S) σ σ where
  forward st _ h := ⟨st, h.symm, fun n _ hn => ⟨n, hn⟩⟩
  backward n st _ h := ⟨st, n, Nat.le_refl n, rfl, h⟩

theorem congr (h : Simulates I P R σ σ') (hR : ∀ st S', R (I.view st) S' ↔ R' (I.view st) S') :
    Simulates I P R' σ σ' where
  forward st S' hR' := h.forward st S' ((hR st S').mpr hR')
  backward n st o hn := by
    obtain ⟨st', n', hle, hR', hn'⟩ := h.backward n st o hn
    exact ⟨st', n', hle, (hR st _).mp hR', hn'⟩

theorem seq (h : Simulates I P R σ σ') (h' : Simulates I P R' σ' σ'') :
    Simulates I P (fun S S' => ∃ S₁, R S S₁ ∧ R' S₁ S') σ σ'' where
  forward := by
    rintro st S' ⟨S₁, hR, hR'⟩
    obtain ⟨st₁, rfl, hst₁⟩ := h.forward st S₁ hR
    obtain ⟨st₂, hview, hst₂⟩ := h'.forward st₁ S' hR'
    refine ⟨st₂, hview, fun n o hn => ?_⟩
    obtain ⟨n₁, hn₁⟩ := hst₂ n o hn
    exact hst₁ n₁ o hn₁
  backward := by
    intro n st o hn
    obtain ⟨st₁, n₁, hle, hR, hn₁⟩ := h.backward n st o hn
    obtain ⟨st₂, n₂, hle', hR', hn₂⟩ := h'.backward n₁ st₁ o hn₁
    exact ⟨st₂, n₂, hle'.trans hle, ⟨_, hR, hR'⟩, hn₂⟩

/-- The run goes on with a jump. -/
theorem passes (h : Simulates I P R σ σ') (hpass : ∀ st, I.Passes P σ' τ st) :
    Simulates I P R σ τ where
  forward := by
    intro st S' hR
    obtain ⟨st', hview, hst'⟩ := h.forward st S' hR
    exact ⟨st', hview, fun n o hn => hst' (n + 1) o ((hpass st' _ o).mpr ⟨n, rfl, hn⟩)⟩
  backward := by
    intro n st o hn
    obtain ⟨st', n', hle, hR, hn'⟩ := h.backward n st o hn
    obtain ⟨m, rfl, hm⟩ := (hpass st' n' o).mp hn'
    exact ⟨st', m, by omega, hR, hm⟩

/-- Code in a block. -/
theorem code {i : Nat} {blk blk' : Block} {code : List Instr} (hat : σ.builder.At i blk)
    (hat' : σ'.builder.At i blk') (hcode : blk'.instrs = blk.instrs ++ code) (hI : I.Holds σ')
    (hfwd : ∀ st S', R (I.view st) S' → ∃ st', exec P code st = some st' ∧ I.view st' = S')
    (hbwd : ∀ st st', exec P code st = some st' → R (I.view st) (I.view st')) :
    Simulates I P R σ σ' where
  forward := by
    intro st S' hR
    obtain ⟨st', hexec, hview⟩ := hfwd st S' hR
    refine ⟨st', hview, fun n o hn => ⟨n, ?_⟩⟩
    rw [Image.returnsAt_code hat hat' hcode hI]
    exact ⟨st', hexec, hn⟩
  backward := by
    intro n st o hn
    rw [Image.returnsAt_code hat hat' hcode hI] at hn
    obtain ⟨st', hexec, hn'⟩ := hn
    exact ⟨st', n, Nat.le_refl n, hbwd st st' hexec, hn'⟩

/-- Two states of lowering that stand for the same place. -/
theorem stay {i : Nat} {blk : Block} (hat : σ.builder.At i blk) (hat' : σ'.builder.At i blk)
    (hI : I.Holds σ') : Simulates I P (fun S S' => S' = S) σ σ' := by
  refine .code hat hat' (List.append_nil _).symm hI ?_ ?_
  · rintro st _ rfl
    exact ⟨st, rfl, rfl⟩
  · rintro st _ ⟨⟩
    rfl

theorem declare (hσ : σ.Open) (name : String) (ty : Ty) (hI : I.Holds (σ.declare name ty)) :
    Simulates I P (fun S S' => S' = S) σ (σ.declare name ty) := by
  obtain ⟨i, blk, hat, -⟩ := hσ
  refine .code hat (hat.allocate name ty.slotTy) rfl hI ?_ ?_
  · rintro st _ rfl
    exact ⟨st, rfl, rfl⟩
  · rintro st _ ⟨⟩
    rfl

/-- A variable is set to the value of an expression, in its own type. -/
theorem store {e : Expr} {v : Value} {code : List Instr} {x : String} {a : Symbol} (hσ : σ.Open)
    (hx : I.symbols.lookup? x = some a) (h : e.Yields σ a.slot.ty (Val.into a.slot.ty) v code)
    (hnum : e.Numeric) (hI : I.Holds ((σ.compute code).store v a.slot)) :
    Simulates I P (fun S S' => ∃ w, e.eval P S = some w ∧ S' = S.set x (w.convert a.ty)) σ
      ((σ.compute code).store v a.slot) := by
  obtain ⟨i, blk, hat, -⟩ := hσ
  -- What is stored is the value of the expression, in the store that the code started from.
  have hstore : ∀ st st' (w : Val), exec P code st = some st' →
      (Operand.value v).eval st' = some (w.into a.slot.ty) →
      ∃ st'', (Instr.store v a.slot).exec P st' = some st'' ∧
        I.view st'' = (I.view st).set x (w.convert a.ty) := by
    intro st st' w hexec hw
    obtain ⟨d, hd, hval⟩ := Option.map_eq_some_iff.mp hw
    refine ⟨st'.write a.slot d, Instr.exec_store hd a.slot, ?_⟩
    have hty : d.ty = a.slot.ty := (Value.ty_of_eval hd).trans h.ty_eq
    rw [Image.view_write hx hty, hval, I.typed hx, Val.into_slotTy,
      Image.view_of_computes h.computes hexec]
  have hle : σ.symbols.Le I.symbols := hI.symbols_le
  refine .code hat ((hat.compute code).append [.store v a.slot]) (List.append_assoc _ _ _) hI ?_ ?_
  · rintro st S' ⟨w, hw, rfl⟩
    have hreal := h.realizes P I.symbols st hle hnum
    rw [show e.eval P (I.symbols.view st.memory) = some w from hw] at hreal
    obtain ⟨st', hst', hv⟩ := hreal
    obtain ⟨st'', hst'', hview⟩ := hstore st st' w hst' hv
    exact ⟨st'', by rw [exec_append_of_eq_some hst', exec_singleton, hst''], hview⟩
  · intro st st'' hexec
    rw [exec_append] at hexec
    obtain ⟨st', hst', hexec⟩ := Option.bind_eq_some_iff.mp hexec
    obtain ⟨u, hu, hv⟩ := (h.realizes P I.symbols st hle hnum).of_exec hst'
    obtain ⟨w, hw, rfl⟩ := Option.map_eq_some_iff.mp hu
    obtain ⟨st₁, hst₁, hview⟩ := hstore st st' w hst' hv
    rw [exec_singleton, hst₁] at hexec
    cases hexec
    exact ⟨w, hw, hview⟩

end Simulates

/-! ## Branches -/

/-- From a place, control passes to one of two others as a test of the variables says. -/
structure Branches (I : Image) (P : Primitives) (test : Store → Option Bool) (σ τ τ' : Lowering) :
    Prop where
  forward : ∀ st b, test (I.view st) = some b → ∃ st', I.view st' = I.view st ∧
    ∀ n o, I.ReturnsAt P (if b then τ else τ') n st' o → ∃ n', I.ReturnsAt P σ n' st o
  backward : ∀ n st o, I.ReturnsAt P σ n st o → ∃ b st' m, test (I.view st) = some b ∧ m < n ∧
    I.view st' = I.view st ∧ I.ReturnsAt P (if b then τ else τ') m st' o

namespace Branches

variable {I : Image} {P : Primitives} {test : Store → Option Bool} {R R' : Store → Store → Prop}
  {σ τ τ' ρ : Lowering}

theorem ite (h : Branches I P test σ τ τ') (hτ : Simulates I P R τ ρ)
    (hτ' : Simulates I P R' τ' ρ) :
    Simulates I P (fun S S' => test S = some true ∧ R S S' ∨ test S = some false ∧ R' S S') σ ρ
    where
  forward := by
    rintro st S' (⟨htest, hR⟩ | ⟨htest, hR⟩)
    · obtain ⟨st₁, hview, hst₁⟩ := h.forward st true htest
      rw [← hview] at hR
      obtain ⟨st₂, hview₂, hst₂⟩ := hτ.forward st₁ S' hR
      refine ⟨st₂, hview₂, fun n o hn => ?_⟩
      obtain ⟨m, hm⟩ := hst₂ n o hn
      exact hst₁ m o hm
    · obtain ⟨st₁, hview, hst₁⟩ := h.forward st false htest
      rw [← hview] at hR
      obtain ⟨st₂, hview₂, hst₂⟩ := hτ'.forward st₁ S' hR
      refine ⟨st₂, hview₂, fun n o hn => ?_⟩
      obtain ⟨m, hm⟩ := hst₂ n o hn
      exact hst₁ m o hm
  backward := by
    intro n st o hn
    obtain ⟨b, st₁, m, htest, hlt, hview, hm⟩ := h.backward n st o hn
    cases b with
    | true =>
      obtain ⟨st₂, n', hle, hR, hn'⟩ := hτ.backward m st₁ o hm
      rw [hview] at hR
      exact ⟨st₂, n', by omega, .inl ⟨htest, hR⟩, hn'⟩
    | false =>
      obtain ⟨st₂, n', hle, hR, hn'⟩ := hτ'.backward m st₁ o hm
      rw [hview] at hR
      exact ⟨st₂, n', by omega, .inr ⟨htest, hR⟩, hn'⟩

/-- What lies behind one of the places leads back to the test. -/
theorem loop (h : Branches I P test σ τ τ') (hτ : Simulates I P R τ σ) :
    Simulates I P (Iterates test R) σ τ' where
  forward := by
    intro st S' hR
    -- By induction on the passes, each from the state that the one before ends in.
    generalize hS : I.view st = S at hR
    induction hR generalizing st with
    | done htest =>
      subst hS
      exact h.forward st false htest
    | again htest hpass _ ih =>
      subst hS
      obtain ⟨st₁, hview, hst₁⟩ := h.forward st true htest
      rw [← hview] at hpass
      obtain ⟨st₂, hview₂, hst₂⟩ := hτ.forward st₁ _ hpass
      obtain ⟨st₃, hview₃, hst₃⟩ := ih st₂ hview₂
      refine ⟨st₃, hview₃, fun n o hn => ?_⟩
      obtain ⟨n₂, hn₂⟩ := hst₃ n o hn
      obtain ⟨n₁, hn₁⟩ := hst₂ n₂ o hn₂
      exact hst₁ n₁ o hn₁
  backward := by
    intro n
    -- Every pass makes a jump, so the jumps left are fewer when the test is reached again.
    induction n using Nat.strong_induction_on with
    | h n ih =>
      intro st o hn
      obtain ⟨b, st₁, m, htest, hlt, hview, hm⟩ := h.backward n st o hn
      cases b with
      | false =>
        refine ⟨st₁, m, hlt.le, ?_, hm⟩
        rw [hview]
        exact .done htest
      | true =>
        obtain ⟨st₂, n₂, hle, hpass, hn₂⟩ := hτ.backward m st₁ o hm
        obtain ⟨st₃, n₃, hle', hrest, hn₃⟩ := ih n₂ (by omega) st₂ o hn₂
        rw [hview] at hpass
        exact ⟨st₃, n₃, by omega, .again htest hpass hrest, hn₃⟩

/-- The branch on the truth value of an expression. -/
theorem of_yields {e : Expr} {v : Value} {code : List Instr} {σ₁ : Lowering} {i j k : Nat}
    {cur blk blk' : Block} (hat : σ.builder.At i cur)
    (hat₁ : σ₁.builder.At i { cur with instrs := cur.instrs ++ code })
    (hcur : cur.terminator = none) (h : e.Yields σ .i1 (fun a => .ofBool a.truth) v code)
    (hnum : e.Numeric) (hle : σ.symbols.Le I.symbols)
    (hI : I.Holds (σ₁.close (.condBr v blk.name blk'.name)))
    (hτ : τ.builder.At j blk) (hblk : blk.instrs = []) (hIτ : I.Holds τ)
    (hτ' : τ'.builder.At k blk') (hblk' : blk'.instrs = []) (hIτ' : I.Holds τ') :
    Branches I P (e.test P) σ τ τ' := by
  have hopen₁ : σ₁.Open := ⟨i, _, hat₁, hcur⟩
  have hI₁ : I.Holds σ₁ := hI.of_close hopen₁
  -- Behind the code of the expression, the truth value decides where the jump goes.
  have hpass : ∀ st' b, v.eval st' = some (.bool b) →
      I.Passes P σ₁ (if b then τ else τ') st' := by
    intro st' b hv
    cases b with
    | true =>
      exact Image.passes_of_next? hopen₁ hI (by simp [Terminator.next?, hv]) hτ hblk hIτ
    | false =>
      exact Image.passes_of_next? hopen₁ hI (by simp [Terminator.next?, hv]) hτ' hblk' hIτ'
  constructor
  case forward =>
    intro st b htest
    obtain ⟨a, ha, rfl⟩ := Option.map_eq_some_iff.mp htest
    have hreal := h.realizes P I.symbols st hle hnum
    rw [show e.eval P (I.symbols.view st.memory) = some a from ha] at hreal
    obtain ⟨st', hst', hv⟩ := hreal
    obtain ⟨b, hb, heq⟩ := Value.eval_i1 hv h.ty_eq
    obtain rfl := Val.ofBool_injective heq
    refine ⟨st', Image.view_of_computes h.computes hst', fun n o hn => ⟨n + 1, ?_⟩⟩
    rw [Image.returnsAt_code hat hat₁ rfl hI₁]
    exact ⟨st', hst', (hpass st' _ hb _ o).mpr ⟨n, rfl, hn⟩⟩
  case backward =>
    intro n st o hn
    rw [Image.returnsAt_code hat hat₁ rfl hI₁] at hn
    obtain ⟨st', hst', hn'⟩ := hn
    obtain ⟨u, hu, hv⟩ := (h.realizes P I.symbols st hle hnum).of_exec hst'
    obtain ⟨a, ha, rfl⟩ := Option.map_eq_some_iff.mp hu
    obtain ⟨b, hb, heq⟩ := Value.eval_i1 hv h.ty_eq
    obtain rfl := Val.ofBool_injective heq
    obtain ⟨m, rfl, hm⟩ := (hpass st' _ hb n o).mp hn'
    refine ⟨a.truth, st', m, ?_, Nat.lt_succ_self m, Image.view_of_computes h.computes hst', hm⟩
    exact Option.map_eq_some_iff.mpr ⟨a, ha, rfl⟩

end Branches

end TinyC
