import TinyC.Proofs.Ir.Typing

/-!
# Control flow

Control passes along edges, from a block to those that its terminator names. A function has a single
entry and a single exit if control can get from the first block to every block, and from every block
to the only one that returns.

While a function is built its blocks change, but their names stay. So for functions under
construction the same is said of names: `Goes` and `Leads` only gain from what is added.
-/

namespace TinyC.Ir

/-- The block ends the function. -/
def Block.Returns (b : Block) : Prop := b.returned?.isSome = true

instance (b : Block) : Decidable b.Returns := inferInstanceAs (Decidable (_ = _))

theorem Block.filter_returns_eq_nil {blocks : List Block} (h : ∀ b ∈ blocks, b.returned? = none) :
    blocks.filter (·.Returns) = [] := by
  refine List.filter_eq_nil_iff.mpr fun b hb => ?_
  rw [decide_eq_true_iff, Returns, h b hb]
  decide

namespace Function

/-! ## Blocks -/

/-- Control may pass from one block to another. -/
def Edge (f : Function) (blk blk' : Block) : Prop :=
  blk ∈ f.blocks ∧ blk' ∈ f.blocks ∧ ∃ t, blk.terminator = some t ∧ blk'.name ∈ t.targets

/-- Control may get from one block to another. -/
abbrev Reaches (f : Function) : Block → Block → Prop := Relation.ReflTransGen f.Edge

/-- Control comes in at `first` only and goes out at `last` only, and no block is beside the way. -/
structure SingleEntryExit (f : Function) (first last : Block) : Prop where
  entry : f.blocks.head? = some first
  exit : f.blocks.filter (·.Returns) = [last]
  reached : ∀ blk ∈ f.blocks, f.Reaches first blk
  leads : ∀ blk ∈ f.blocks, f.Reaches blk last

/-! ## Names -/

/-- The block of the first name ends in a jump that may go to the second. -/
def Goes (f : Function) (a b : String) : Prop :=
  ∃ blk ∈ f.blocks, blk.name = a ∧ ∃ t, blk.terminator = some t ∧ b ∈ t.targets

/-- Jumps lead from the first name to the second. -/
abbrev Leads (f : Function) : String → String → Prop := Relation.ReflTransGen f.Goes

variable {f g : Function} {a b : String}

theorem Goes.mono (h : f.Goes a b) (hgrows : f.Grows g) : g.Goes a b := by
  obtain ⟨blk, hblk, rfl, t, ht, hb⟩ := h
  obtain ⟨j, hj⟩ := List.mem_iff_getElem?.mp hblk
  obtain ⟨blk', hj', hblk'⟩ := hgrows j blk hj
  -- A block that ends in a jump is sealed, so it stays as it is.
  obtain rfl := hblk'.of_sealed (by simp [ht])
  exact ⟨blk', List.mem_of_getElem? hj', rfl, t, ht, hb⟩

theorem Leads.mono (h : f.Leads a b) (hgrows : f.Grows g) : g.Leads a b :=
  Relation.ReflTransGen.mono (fun _ _ hgoes => Goes.mono hgoes hgrows) _ _ h

theorem Grows.blockNames_subset (h : f.Grows g) : f.blockNames ⊆ g.blockNames := by
  intro name hname
  obtain ⟨blk, hblk, rfl⟩ := List.mem_map.mp hname
  obtain ⟨j, hj⟩ := List.mem_iff_getElem?.mp hblk
  obtain ⟨blk', hj', hblk'⟩ := h j blk hj
  rw [← hblk'.name]
  exact List.mem_map_of_mem (List.mem_of_getElem? hj')

/-- Where names are different, they lead the way that control takes. -/
theorem Leads.reaches (hnames : f.blockNames.Nodup) (h : f.Leads a b) {blk blk' : Block}
    (hblk : blk ∈ f.blocks) (ha : blk.name = a) (hblk' : blk' ∈ f.blocks) (hb : blk'.name = b) :
    f.Reaches blk blk' := by
  induction h generalizing blk' with
  | refl =>
    obtain rfl := List.inj_on_of_nodup_map hnames hblk hblk' (ha.trans hb.symm)
    exact .refl
  | tail _ hgoes ih =>
    obtain ⟨mid, hmid, hname, t, ht, htarget⟩ := hgoes
    exact (ih hmid hname).tail ⟨hmid, hblk', t, ht, hb ▸ htarget⟩

end Function

end TinyC.Ir
