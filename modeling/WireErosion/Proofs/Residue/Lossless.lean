import WireErosion.Proofs.Residue.Placement

/-!
# Taking a program apart loses nothing

`Parted.restore` puts the blocks of a program that was taken apart back in the place of their
handles.  `Program.part_lossless` says that this gives the program again, that the residue has the
handle of every block once and in order, and that putting the residue together with any tables of
the same lengths therefore gives no notice and replaces every handle by its block.
-/

namespace WireErosion

open Residue

variable {α : Type}

/-- The lines of the block that a handle stands for, none if there is no such block. -/
def Parted.linesOf (t : Parted α) (h : Handle) : List (Line α) :=
  match h.kind, h.index with
  | .cut, .ofNat i => (t.cuts[i]?.map CutBlock.lines).getD []
  | .plunge, .ofNat i => (t.plunges[i]?.map PlungeBlock.lines).getD []
  | _, .negSucc _ => []

/-- The program that was taken apart, with its blocks back in the place of their handles. -/
def Parted.restore (t : Parted α) : Program α := t.rest.expand t.linesOf

theorem Parted.linesOf_cut {t : Parted α} {i : Nat} {b : CutBlock α} (h : t.cuts[i]? = some b) :
    t.linesOf ⟨.cut, i⟩ = b.lines := by
  simp [linesOf, h]

theorem Parted.linesOf_plunge {t : Parted α} {i : Nat} {b : PlungeBlock α}
    (h : t.plunges[i]? = some b) : t.linesOf ⟨.plunge, i⟩ = b.lines := by
  simp [linesOf, h]

/-- The plunges go back first, as they were pulled out last. -/
theorem Program.restore_part (p : Program α) : p.part.restore = p := by
  have hplunges := expand_plungesFrom p.part.linesOf (cutsFrom 0 false p).2.2 0 none
    fun i b hb => by
      rw [Nat.zero_add]
      exact Parted.linesOf_plunge hb
  have hcuts := expand_cutsFrom p.part.linesOf p 0 false fun i b hb => by
    rw [Nat.zero_add]
    exact Parted.linesOf_cut hb
  rw [plungesFrom_closed] at hplunges
  rw [cutsFrom_closed] at hcuts
  exact hplunges.trans hcuts

/-- Taking a program apart loses no line, and its residue holds the handle of every block once, the
indices of each kind rising from zero.  So with any tables of the same lengths the residue is put
together without a notice, every handle replaced by its block.  That it can be put together at all
needs only that the depths of terminal steps can be changed. -/
theorem Program.part_lossless (p : Program α) :
    p.part.restore = p ∧
    p.part.rest.handles .cut = (List.range p.part.cuts.length).map (fun i => ⟨.cut, (i : Nat)⟩) ∧
    p.part.rest.handles .plunge =
      (List.range p.part.plunges.length).map (fun i => ⟨.plunge, (i : Nat)⟩) ∧
    ∀ (cuts : List (CutBlock α)) (plunges : List (PlungeBlock α)),
      cuts.length = p.part.cuts.length → plunges.length = p.part.plunges.length →
        (reassemble p.part.rest cuts plunges).notices = [] ∧
        (∀ q, (reassemble p.part.rest cuts plunges).outcome = .ok q →
          ∃ chunks, List.Forall₂ (Replaced cuts plunges) p.part.rest chunks ∧
            q = chunks.flatten) ∧
        ((∀ b ∈ plunges, b.RolesOnMoves) →
          ∃ q, (reassemble p.part.rest cuts plunges).outcome = .ok q) := by
  have horder := p.part_inOrder
  refine ⟨p.restore_part, ?_, ?_, ?_⟩
  · rw [horder.handles_cut, Nat.sub_zero, ← List.range_eq_range']
  · rw [horder.handles_plunge, Nat.sub_zero, ← List.range_eq_range']
  · intro cuts plunges hcuts hplunges
    rw [← hcuts, ← hplunges] at horder
    refine ⟨notices_reassemble horder, ?_, ?_⟩
    · intro q hq
      obtain ⟨t, ht⟩ := outcome_reassemble.mp hq
      exact (replaced_of_placeFrom horder Placing.upto_start ht).2
    · intro hroles
      obtain ⟨t, q, hq⟩ := exists_placeFrom horder Placing.upto_start hroles
      exact ⟨q, outcome_reassemble.mpr ⟨t, hq⟩⟩

/-- Two cuts back to back, a retract whose plunge stands before a third cut, and that cut open at
the end. -/
def crowdedProgram : Program Nat :=
  [.cut, .move (.linear (some 1) none none none none), .cut,
    .move (.linear none (some 2) none none none), .comment "; note", .retract,
    .move (.rapid none none (some 5)), .blank, .pathStart 0, .rapidToStart,
    .move (.rapid (some 0) (some 0) none), .plunge, .move (.linear none none (some 1) none none),
    .cut, .move (.linear (some 3) (some 3) none none none)]

/-- Three other cuts and another plunge go into the residue without a notice, each in the place of
its handle. -/
theorem crowdedProgram_part_lossless :
    crowdedProgram.part.cuts.length = 3 ∧ crowdedProgram.part.plunges.length = 1 ∧
      (reassemble crowdedProgram.part.rest [⟨[], some 1⟩, ⟨[.cut], some 2⟩, ⟨[], none⟩]
        [[⟨.move (.linear none none (some 9) none none), some .plunge⟩]]).notices = [] ∧
      ∃ chunks, (reassemble crowdedProgram.part.rest [⟨[], some 1⟩, ⟨[.cut], some 2⟩, ⟨[], none⟩]
          [[⟨.move (.linear none none (some 9) none none), some .plunge⟩]]).outcome
            = .ok chunks.flatten ∧
        List.Forall₂ (Replaced [⟨[], some 1⟩, ⟨[.cut], some 2⟩, ⟨[], none⟩]
          [[⟨.move (.linear none none (some 9) none none), some .plunge⟩]])
          crowdedProgram.part.rest chunks := by
  have hcuts : crowdedProgram.part.cuts.length = 3 := by decide
  have hplunges : crowdedProgram.part.plunges.length = 1 := by decide
  obtain ⟨-, -, -, h⟩ := crowdedProgram.part_lossless
  obtain ⟨hsilent, hreplaced, hplaced⟩ := h [⟨[], some 1⟩, ⟨[.cut], some 2⟩, ⟨[], none⟩]
    [[⟨.move (.linear none none (some 9) none none), some .plunge⟩]] hcuts.symm hplunges.symm
  obtain ⟨q, hq⟩ := hplaced (by simp [PlungeBlock.RolesOnMoves, Line.isMove])
  obtain ⟨chunks, hchunks, rfl⟩ := hreplaced q hq
  exact ⟨hcuts, hplunges, hsilent, chunks, hq, hchunks⟩

end WireErosion
