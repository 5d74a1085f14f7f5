import TinyC.Proofs.Ir.Naming
import TinyC.Proofs.Ir.Verify

/-!
# Functions made by a builder

Blocks are called differently, and a branch is made to a block that is there. So the verifier can
only object to what has not been built yet. Main statement: it asks for a block if there is none,
and otherwise for a terminator of the first block that is open.
-/

namespace TinyC.Ir

namespace Builder

/-- Every terminator names blocks of the function. -/
def Aimed (b : Builder) : Prop :=
  ∀ blk ∈ b.function.blocks, ∀ t, blk.terminator = some t → t.targets ⊆ b.function.blockNames

namespace Aimed

variable {b : Builder}

theorem addBlock (h : b.Aimed) (base : String) : (b.addBlock base).Aimed := by
  intro blk hblk t ht
  rw [blockNames_addBlock]
  rcases List.mem_append.mp hblk with hblk | hblk
  · exact List.subset_append_of_subset_left _ (h blk hblk t ht)
  · obtain rfl := List.mem_singleton.mp hblk
    cases ht

/-- A change of the current block that keeps its name needs to be looked at there only. -/
theorem modifyCurrent (h : b.Aimed) (hopen : b.Open) {f : Block → Block}
    (hname : ∀ blk, (f blk).name = blk.name)
    (hf : ∀ blk, blk.terminator = none → ∀ t, (f blk).terminator = some t →
      t.targets ⊆ b.function.blockNames) : (b.modifyCurrent f).Aimed := by
  obtain ⟨i, blk, hat, hterminator⟩ := hopen
  intro blk' hblk' t ht
  rw [b.blockNames_modifyCurrent hname]
  rcases hat.mem_modifyCurrent hblk' with rfl | hblk'
  · exact hf blk hterminator t ht
  · exact h blk' hblk' t ht

theorem append (h : b.Aimed) (hopen : b.Open) (code : List Instr) : (b.append code).Aimed := by
  refine h.modifyCurrent hopen (fun _ => rfl) ?_
  intro blk hnone t ht
  rw [hnone] at ht
  cases ht

theorem close (h : b.Aimed) (hopen : b.Open) {t : Terminator}
    (ht : t.targets ⊆ b.function.blockNames) : (b.close t).Aimed := by
  refine h.modifyCurrent hopen (fun _ => rfl) ?_
  rintro blk - _ ⟨⟩
  exact ht

end Aimed

variable {names : Set String} {b b' : Builder}

theorem Move.aimed (h : b.Move names b') (hb : b.Aimed) : b'.Aimed := by
  cases h with
  | @addBlock base => exact hb.addBlock base
  | moveTo | skipReg => exact hb
  | allocate _ hopen => exact hb.append hopen _
  | store _ _ hopen => exact hb.append hopen _
  | compute hopen => exact hb.append hopen _
  | close hopen htargets => exact hb.close hopen htargets

theorem Move.function_name (h : b.Move names b') : b'.function.name = b.function.name := by
  cases h with
  | addBlock | moveTo | skipReg => rfl
  | allocate | store | compute | close => exact modifyCurrent_name _ _

theorem Reach.function_name (h : b.Reach names b') : b'.function.name = b.function.name := by
  induction h with
  | refl => rfl
  | tail _ hmove ih => exact hmove.function_name.trans ih

theorem Reach.linked {name : String} {ret : Ty} (h : (Builder.new name ret).Reach names b) :
    b.function.Linked where
  names := (List.nodup_append.mp (h.named (.new name ret)).distinct).1
  targets := h.preserves Move.aimed nofun

end Builder

/-- Whatever is called, the verifier only misses a block or the terminator of one. -/
theorem Calls.verify_function {names : Set String} {name : String} {ret : Ty} {b : Builder}
    (h : Calls names (.new name ret) b) :
    (b.function.verify = .ok () ↔
      b.function.blocks ≠ [] ∧ ∀ blk ∈ b.function.blocks, blk.terminator.isSome) ∧
    ∀ e, b.function.verify = .error e ↔
      b.function.blocks = [] ∧ e = .emptyFunction name ∨
      ∃ pre blk post, b.function.blocks = pre ++ blk :: post ∧
        (∀ blk' ∈ pre, blk'.terminator.isSome) ∧ blk.terminator = none ∧
        e = .unterminatedBlock blk.name := by
  have hlinked := h.reach.linked
  refine ⟨hlinked.verify_eq_ok_iff, fun e => ?_⟩
  rw [hlinked.verify_eq_error_iff, h.reach.function_name]
  rfl

/-- Names that collide with each other's numbers, a block that is branched to before and after it is
made, a cursor that leads nowhere, and an arm that fails behind its return. -/
def collisions : List Command :=
  [.appendBlock "a", .appendBlock "a.1", .appendBlock "a", .moveTo ⟨0⟩, .alloca "a" .i32,
    .branch ⟨3⟩, .appendBlock "a", .branch ⟨3⟩, .moveTo ⟨7⟩, .ret none, .moveTo ⟨2⟩,
    .ifThen (.bool true) [.ret none, .load ⟨"a", .i32⟩]]

/-- What the collisions leave behind. -/
def collided : Builder :=
  ((runScript collisions (.new "f" .i32)).getLast (by simp [collisions, runScript])).2

theorem collided_calls : Calls Set.univ (.new "f" .i32) collided :=
  runScript_calls (List.getLast_mem _)

theorem collided_verify :
    collided.function.blockNames = ["a", "a.1", "a.2", "a.4", "if.then", "if.end"] ∧
    collided.function.verify = .error (.unterminatedBlock "a.1") := by
  refine ⟨by decide +kernel, ((Calls.verify_function collided_calls).2 _).mpr (.inr ?_)⟩
  exact ⟨[⟨"a", [.alloca ⟨"a.3", .i32⟩], some (.br "a.4")⟩], ⟨"a.1", [], none⟩,
    collided.function.blocks.drop 2, by decide +kernel, by decide, rfl, rfl⟩

end TinyC.Ir
