import TinyC.Proofs.Ir.Calls

/-!
# Names given out by a builder

Blocks and slots take their names from one table, so that no two of them are ever called alike.
Registers are numbered, so that no two of them are. But the table does not know of the registers:
a block or a slot can be called like one. Main statement: that is so exactly where calls may ask for
the empty name, or for the name of a register.
-/

namespace TinyC.Ir

/-! ## Names of registers -/

/-- The name does not stand for a register, nor does it become one with a number appended. -/
def Ordinary (name : String) : Prop := name ≠ "" ∧ ∀ n, 0 < n → name ≠ regName n

theorem Plain.ordinary {name : String} (h : Plain name) : Ordinary name := by
  constructor
  · rintro rfl
    exact absurd h (by decide)
  · rintro n - rfl
    exact not_plain_regName n h

/-- A number behind a name that is not empty leaves a point inside, which no register has. -/
theorem suffixed_ne_regName {base : String} (h : base ≠ "") (k n : Nat) :
    suffixed base k ≠ regName n := by
  intro heq
  have hlist := congrArg String.toList heq
  simp only [suffixed, regName, String.toList_append] at hlist
  cases hbase : base.toList with
  | nil => exact h (by simpa using hbase)
  | cons c cs =>
    rw [hbase] at hlist
    have hpoint : '.' ∈ Nat.toDigits 10 n := by
      obtain ⟨-, htail⟩ : c = '.' ∧ cs ++ '.' :: Nat.toDigits 10 k = Nat.toDigits 10 n := by
        simpa using hlist
      rw [← htail]
      simp
    exact absurd (Nat.isDigit_of_mem_toDigits (by decide) (by decide) hpoint) (by decide)

theorem NameTable.fresh_ne_regName (t : NameTable) {base : String} (h : Ordinary base) {n : Nat}
    (hn : 0 < n) : (t.fresh base).1 ≠ regName n := by
  cases hlast : t.last? base with
  | none => simpa [fresh, hlast] using h.2 n hn
  | some m => simpa [fresh, hlast] using suffixed_ne_regName h.1 _ n

namespace Function

/-- The names of all blocks, slots and registers. -/
def allNames (f : Function) : List String := f.usedNames ++ f.defined.map Reg.name

end Function

namespace Builder

/-! ## One move -/

section

variable {names : Set String} {b b' : Builder}

/-- A move uses no new name, or one that the name table has just given out. -/
theorem Move.usedNames (h : b.Move names b') :
    (b'.function.usedNames.Perm b.function.usedNames ∧ b'.names = b.names) ∨
    ∃ base ∈ names, b'.function.usedNames.Perm
        ((b.names.fresh base).1 :: b.function.usedNames) ∧
      b'.names = (b.names.fresh base).2 := by
  cases h with
  | @addBlock base hbase => exact .inr ⟨base, hbase, b.usedNames_addBlock base, rfl⟩
  | moveTo | skipReg => exact .inl ⟨.rfl, rfl⟩
  | @allocate base ty hopen hbase =>
    refine .inr ⟨base, hbase, ?_, rfl⟩
    exact (hopen.usedNames_append _).trans (List.perm_append_singleton _ _)
  | store v slot hopen =>
    have hused := hopen.usedNames_append [.store v slot]
    rw [List.filterMap_cons_none rfl, List.filterMap_nil, List.map_nil, List.append_nil] at hused
    exact .inl ⟨hused, modifyCurrent_names _ _⟩
  | @compute i ty hopen hdest =>
    have hused := hopen.usedNames_append [i]
    rw [List.filterMap_cons_none (Instr.made?_eq_none hdest), List.filterMap_nil, List.map_nil,
      List.append_nil] at hused
    exact .inl ⟨hused, modifyCurrent_names _ _⟩
  | close hopen => exact .inl ⟨.of_eq (hopen.usedNames_close _), modifyCurrent_names _ _⟩

/-- A move makes no register, or the next one, or uses up its number. -/
theorem Move.defined (h : b.Move names b') :
    b'.function.defined.Perm b.function.defined ∧ b.temporaries ≤ b'.temporaries ∨
    ∃ ty, b'.function.defined.Perm (b.function.defined ++ [b.nextReg ty]) ∧
      b'.temporaries = b.temporaries + 1 := by
  cases h with
  | @addBlock base =>
    refine .inl ⟨.of_eq ?_, Nat.le_refl _⟩
    exact congrArg (List.filterMap Instr.dest?) (b.instructions_addBlock base)
  | moveTo => exact .inl ⟨.rfl, Nat.le_refl _⟩
  | skipReg => exact .inl ⟨.rfl, Nat.le_succ _⟩
  | @allocate base ty hopen hbase =>
    have hdefined := hopen.defined_append [.alloca (b.nextSlot base ty)]
    rw [List.filterMap_cons_none rfl, List.filterMap_nil, List.append_nil] at hdefined
    exact .inl ⟨hdefined, (modifyCurrent_temporaries _ _).ge⟩
  | store v slot hopen =>
    have hdefined := hopen.defined_append [.store v slot]
    rw [List.filterMap_cons_none rfl, List.filterMap_nil, List.append_nil] at hdefined
    exact .inl ⟨hdefined, (modifyCurrent_temporaries _ _).ge⟩
  | @compute i ty hopen hdest =>
    have hdefined := hopen.defined_append [i]
    rw [List.filterMap_cons_some hdest, List.filterMap_nil] at hdefined
    exact .inr ⟨ty, hdefined, rfl⟩
  | close hopen =>
    exact .inl ⟨.of_eq (hopen.defined_close _), (modifyCurrent_temporaries _ _).ge⟩

end

/-! ## All builders -/

/-- No two blocks or slots share a name and the table knows all of them; registers have the numbers
given out so far, some of which may have been used up by refused instructions. -/
structure Named (b : Builder) : Prop where
  distinct : b.function.usedNames.Nodup
  known : b.function.usedNames ⊆ b.names.names
  numbered : (b.function.defined.map Reg.name).Subperm
    ((List.range' 1 b.temporaries).map regName)

theorem Named.new (name : String) (ret : Ty) : (Builder.new name ret).Named where
  distinct := List.nodup_nil
  known := List.nil_subset _
  numbered := List.nil_subperm

section

variable {names : Set String} {b b' : Builder}

theorem Move.distinct (h : b.Move names b') (hb : b.Named) :
    b'.function.usedNames.Nodup ∧ b'.function.usedNames ⊆ b'.names.names := by
  rcases h.usedNames with ⟨hperm, hnames⟩ | ⟨base, -, hperm, hnames⟩
  · rw [hnames]
    exact ⟨hperm.nodup_iff.mpr hb.distinct, List.Subset.trans hperm.subset hb.known⟩
  -- A fresh name is not in the table, and the table knows every name in use.
  · have hfresh : (b.names.fresh base).1 ∉ b.function.usedNames := fun hmem =>
      b.names.fresh_not_mem base (hb.known hmem)
    rw [hnames]
    refine ⟨hperm.nodup_iff.mpr (List.nodup_cons.mpr ⟨hfresh, hb.distinct⟩), ?_⟩
    refine List.Subset.trans hperm.subset (List.cons_subset.mpr ⟨?_, ?_⟩)
    · exact b.names.mem_names_fresh base
    · exact List.Subset.trans hb.known (b.names.names_subset_fresh base)

theorem Move.numbered (h : b.Move names b') (hb : b.Named) :
    (b'.function.defined.map Reg.name).Subperm ((List.range' 1 b'.temporaries).map regName) := by
  rcases h.defined with ⟨hperm, hle⟩ | ⟨ty, hperm, htemporaries⟩
  · have hsub : (List.range' 1 b.temporaries).Sublist (List.range' 1 b'.temporaries) := by
      rwa [List.range'_sublist_right]
    exact (hperm.map _).subperm.trans (hb.numbered.trans (hsub.map _).subperm)
  · have hrange : List.range' 1 (b.temporaries + 1) =
        List.range' 1 b.temporaries ++ [b.temporaries + 1] := by
      rw [List.range'_concat, Nat.one_mul, Nat.add_comm 1]
    rw [htemporaries, hrange, List.map_append]
    refine (hperm.map _).subperm.trans ?_
    rw [List.map_append]
    exact (List.subperm_append_right _).mpr hb.numbered

theorem Move.named (h : b.Move names b') (hb : b.Named) : b'.Named where
  distinct := (h.distinct hb).1
  known := (h.distinct hb).2
  numbered := h.numbered hb

theorem Reach.named (h : b.Reach names b') (hb : b.Named) : b'.Named :=
  h.preserves Move.named hb

/-- Blocks and slots are not called like registers where no call asks for such a name. -/
theorem Reach.ne_regName (hnames : ∀ base ∈ names, Ordinary base) (h : b.Reach names b')
    (hb : ∀ x ∈ b.function.usedNames, ∀ n, 0 < n → x ≠ regName n) :
    ∀ x ∈ b'.function.usedNames, ∀ n, 0 < n → x ≠ regName n := by
  refine h.preserves (I := fun b => ∀ x ∈ b.function.usedNames, ∀ n, 0 < n → x ≠ regName n)
    ?_ hb
  intro b b' hmove hb
  rcases hmove.usedNames with ⟨hperm, -⟩ | ⟨base, hbase, hperm, -⟩
  · exact fun x hx => hb x (hperm.subset hx)
  · intro x hx n hn
    rcases List.mem_cons.mp (hperm.subset hx) with rfl | hx
    · exact b.names.fresh_ne_regName (hnames base hbase) hn
    · exact hb x hx n hn

end

theorem Named.nodup_registers {b : Builder} (h : b.Named) :
    (b.function.defined.map Reg.name).Nodup := by
  obtain ⟨l, hperm, hsub⟩ := h.numbered
  have hnodup : ((List.range' 1 b.temporaries).map regName).Nodup :=
    (List.nodup_range' ..).map regName_injective
  exact hperm.nodup_iff.mp (hnodup.sublist hsub)

theorem Named.exists_number {b : Builder} (h : b.Named) {x : String}
    (hx : x ∈ b.function.defined.map Reg.name) : ∃ n, 0 < n ∧ x = regName n := by
  obtain ⟨n, hn, rfl⟩ := List.mem_map.mp (h.numbered.subset hx)
  exact ⟨n, (List.mem_range'_1.mp hn).1, rfl⟩

end Builder

/-! ## Blocks and slots that are called like registers -/

theorem plain_of_mem_armNames {base : String} (h : base ∈ armNames) : Plain base := by
  rcases h with rfl | rfl | rfl
  · decide
  · decide
  · decide

section

variable {names : Set String} {b : Builder}

/-- Registers can be used up at will. -/
theorem Calls.exists_temporaries (h : b.Open) (k : Nat) :
    ∃ b', Calls names b b' ∧ b'.Open ∧ b'.temporaries = b.temporaries + k ∧
      b'.function.blockNames = b.function.blockNames := by
  induction k with
  | zero => exact ⟨b, .nil b, h, rfl, rfl⟩
  | succ k ih =>
    obtain ⟨b', hcalls, hopen, htemporaries, hblocks⟩ := ih
    have hrun := BuildM.binary_open hopen .add (.int 0) (.int 0)
    refine ⟨_, hcalls.trans (.cons (.binary .add (.int 0) (.int 0)) (.nil _)), ?_⟩
    rw [after_ok hrun]
    refine ⟨hopen.compute _, ?_, ?_⟩
    · simp [Builder.compute, htemporaries, Nat.add_assoc]
    · simp [Builder.compute, hblocks]

/-- A block that is called like a register to come will share its name with that register. -/
theorem Calls.exists_clash {n : Nat} (hopen : (b.moveTo 0).Open) (hn : b.temporaries < n)
    (hblock : regName n ∈ b.function.blockNames) :
    ∃ b', Calls names b b' ∧ ¬b'.function.allNames.Nodup := by
  obtain ⟨k, rfl⟩ : ∃ k, n = b.temporaries + k + 1 := ⟨n - b.temporaries - 1, by omega⟩
  obtain ⟨b', hcalls, hopen', htemporaries, hblocks⟩ := exists_temporaries hopen k
  have hlast : Calls names b' (after (BuildM.binary .add (.int 0) (.int 0)) b') :=
    .cons (.binary .add (.int 0) (.int 0)) (.nil _)
  refine ⟨_, .cons (.moveTo ⟨0⟩) (hcalls.trans hlast), ?_⟩
  rw [after_ok (BuildM.binary_open hopen' .add (.int 0) (.int 0))]
  have hnext : regName (b'.temporaries + 1) = regName (b.temporaries + k + 1) := by
    rw [htemporaries]
    rfl
  intro hnodup
  refine (List.nodup_append.mp hnodup).2.2 _ (List.mem_append_left _ ?_) _ ?_ hnext.symm
  · rw [Builder.compute, Builder.blockNames_append, hblocks]
    exact hblock
  · have hdefined := hopen'.defined_append
      [.binary (b'.nextReg .i32) .add (.int 0) (.int 0)]
    exact List.mem_map_of_mem (hdefined.mem_iff.mpr (List.mem_append_right _ (.head _)))

/-- A name that may be asked for without ever being met by a register is ordinary. -/
theorem Ordinary.of_nodup {base name : String} {ret : Ty} (hbase : base ∈ names)
    (h : ∀ b, Calls names (.new name ret) b → b.function.allNames.Nodup) : Ordinary base := by
  have hadd (b : Builder) : Calls names b (b.addBlock base) :=
    .cons (.appendBlock hbase) (.nil _)
  constructor
  -- The second block that asks for the empty name is called like the first register.
  · rintro rfl
    have hsecond : ((NameTable.empty.fresh "").2.fresh "").1 = regName 1 := by decide +kernel
    have hblock : regName 1 ∈
        (((Builder.new name ret).addBlock "").addBlock "").function.blockNames := by
      rw [Builder.blockNames_addBlock]
      exact List.mem_append_right _ (List.mem_singleton.mpr hsecond.symm)
    obtain ⟨b, hcalls, hclash⟩ : ∃ b, Calls names
        (((Builder.new name ret).addBlock "").addBlock "") b ∧ ¬b.function.allNames.Nodup :=
      Calls.exists_clash ⟨0, _, ⟨rfl, rfl⟩, rfl⟩ Nat.zero_lt_one hblock
    exact hclash (h b (((hadd _).trans (hadd _)).trans hcalls))
  · rintro n hn rfl
    obtain ⟨b, hcalls, hclash⟩ : ∃ b, Calls names
        ((Builder.new name ret).addBlock (regName n)) b ∧ ¬b.function.allNames.Nodup :=
      Calls.exists_clash ⟨0, _, ⟨rfl, rfl⟩, rfl⟩ hn (List.mem_singleton_self _)
    exact hclash (h b ((hadd _).trans hcalls))

end

/-- Blocks and slots are always called differently, and so are registers. All of them are, whatever
is called, exactly if no call may ask for the empty name or for the name of a register. -/
theorem allNames_nodup_iff (names : Set String) :
    (∀ (name : String) (ret : Ty) (b : Builder), Calls names (.new name ret) b →
      b.function.usedNames.Nodup ∧ (b.function.defined.map Reg.name).Nodup) ∧
    ((∀ (name : String) (ret : Ty) (b : Builder), Calls names (.new name ret) b →
      b.function.allNames.Nodup) ↔ ∀ base ∈ names, Ordinary base) := by
  have hnamed {name ret b} (h : Calls names (.new name ret) b) : b.Named :=
    h.reach.named (.new name ret)
  refine ⟨fun name ret b h => ⟨(hnamed h).distinct, (hnamed h).nodup_registers⟩, ?_, ?_⟩
  · exact fun h base hbase => .of_nodup hbase (h "f" .i32)
  · intro hnames name ret b h
    have hordinary : ∀ base ∈ names ∪ armNames, Ordinary base := by
      rintro base (hbase | hbase)
      · exact hnames base hbase
      · exact (plain_of_mem_armNames hbase).ordinary
    refine List.nodup_append.mpr ⟨(hnamed h).distinct, (hnamed h).nodup_registers, ?_⟩
    rintro x hx y hy rfl
    obtain ⟨n, hn, rfl⟩ := (hnamed h).exists_number hy
    exact h.reach.ne_regName hordinary (List.forall_mem_nil _) _ hx n hn rfl

/-- A block that asks to be called `.1` shares its name with the first register. -/
theorem not_nodup_allNames :
    ∃ step ∈ runScript [.appendBlock ".1", .moveTo ⟨0⟩, .binary .add (.int 1) (.int 2), .ret none]
      (.new "f" .i32), ¬step.2.function.allNames.Nodup := by
  decide +kernel

end TinyC.Ir
