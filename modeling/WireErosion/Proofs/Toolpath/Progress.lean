import WireErosion.Proofs.Number.Difference
import WireErosion.Proofs.Toolpath.Landmark

/-!
# Passes that come to an end

The compiler makes passes until one ends at the final depth.  In exact arithmetic a positive pass
depth is enough for that (`ToolpathParams.finishes_of_pos`).  On doubles it may never get there,
namely if a step is lost in rounding: then the next pass starts at the same depth, and so do all
others.

`ToolpathParams.Finishes` says that it does get there.  With a positive pass depth every pass but
the last one then ends below the depth that it starts from (`ToolpathParams.Finishes.progresses`),
and no pass ends above it.
-/

namespace WireErosion

variable {α : Type} [Scalar α]

/-- The depth after some passes, where `z` is the depth before them. -/
def depthOfPasses (z : α) (passes : List (Pass α)) : α := (passes.map Pass.next).getLastD z

/-- The passes come down to the final depth.  Otherwise there would be no end to them, and no
program. -/
def ToolpathParams.Finishes (c : ToolpathParams α) : Prop :=
  ¬ c.bottomZ < depthOfPasses c.topZ c.passes

omit [Scalar α] in
theorem depthOfPasses_cons (z : α) (pass : Pass α) (passes : List (Pass α)) :
    depthOfPasses z (pass :: passes) = depthOfPasses pass.next passes := List.getLastD_cons

theorem of_mem_passesFrom {passDepth bottom : α} : ∀ {fuel : Nat} {finished : α} {pass : Pass α},
    pass ∈ passesFrom passDepth bottom fuel finished →
      bottom < pass.finished ∧ pass = passFrom passDepth bottom pass.finished
  | 0, _, _, h => by cases h
  | fuel + 1, finished, pass, h => by
      rw [passesFrom] at h
      split at h
      next hbottom =>
        rcases List.mem_cons.mp h with rfl | h
        · exact ⟨hbottom, rfl⟩
        · exact of_mem_passesFrom h
      next => cases h

/-- A step that is lost in rounding is made again and again. -/
theorem depthOfPasses_stuck {passDepth bottom finished : α}
    (h : (passFrom passDepth bottom finished).next = finished) :
    ∀ fuel : Nat, depthOfPasses finished (passesFrom passDepth bottom fuel finished) = finished
  | 0 => rfl
  | fuel + 1 => by
      rw [passesFrom]
      split
      next =>
        dsimp only
        rw [depthOfPasses_cons, h, depthOfPasses_stuck h fuel]
      next => rfl

variable [SteppingScalar α]

/-- A pass that does not end at the final depth makes a whole step. -/
theorem passFrom_next_of_lt {passDepth bottom finished : α}
    (h : bottom < (passFrom passDepth bottom finished).next) :
    (passFrom passDepth bottom finished).next = finished - passDepth := by
  unfold passFrom Scalar.max at h ⊢
  split at h
  next => exact absurd h (SteppingScalar.lt_irrefl bottom)
  next hstep => rw [if_neg hstep]

theorem not_lt_passFrom_next {passDepth bottom finished : α} (hpass : Scalar.zero < passDepth)
    (hbottom : bottom < finished) : ¬ finished < (passFrom passDepth bottom finished).next := by
  intro hup
  have hmore := OrderedScalar.lt_of_lt_of_le hbottom (OrderedScalar.le_of_lt hup)
  have hstep := passFrom_next_of_lt hmore
  rw [hstep] at hup hmore
  rcases SteppingScalar.sub_lt_or_eq hpass hmore with hdown | hstuck
  · exact SteppingScalar.lt_irrefl finished
      (OrderedScalar.lt_of_lt_of_le hup (OrderedScalar.le_of_lt hdown))
  · rw [hstuck] at hup
    exact SteppingScalar.lt_irrefl finished hup

/-- Where the passes come down to the final depth no step is lost. -/
theorem next_lt_of_finishes {passDepth bottom : α} (hpass : Scalar.zero < passDepth) :
    ∀ {fuel : Nat} {finished : α},
      ¬ bottom < depthOfPasses finished (passesFrom passDepth bottom fuel finished) →
      ∀ pass ∈ passesFrom passDepth bottom fuel finished,
        bottom < pass.next → pass.next < pass.finished
  | 0, _, _, _, h, _ => by cases h
  | fuel + 1, finished, hend, pass, h, hmore => by
      rw [passesFrom] at hend h
      split at h
      next hbottom =>
        rw [if_pos hbottom] at hend
        dsimp only at hend h
        rw [depthOfPasses_cons] at hend
        rcases List.mem_cons.mp h with rfl | h
        · have hstep := passFrom_next_of_lt hmore
          rw [hstep] at hmore ⊢
          rcases SteppingScalar.sub_lt_or_eq hpass hmore with hdown | hstuck
          · exact hdown
          · have hnext := hstep.trans hstuck
            rw [hnext, depthOfPasses_stuck hnext] at hend
            exact absurd hbottom hend
        · exact next_lt_of_finishes hpass hend pass h hmore
      next => cases h

namespace ToolpathParams

/-- In exact arithmetic a positive pass depth is enough. -/
theorem finishes_of_pos {c : ToolpathParams ℝ} (hflat : c.usePathZ = false)
    (hpass : 0 < c.passDepth) (hdeep : c.bottomZ < c.topZ) : c.Finishes := by
  obtain ⟨front, last, hpasses, hlast⟩ := exists_last_of_schedule hpass hdeep
  rw [Finishes, passes_of_flat hflat, hpasses, depthOfPasses, List.map_append, List.map_singleton,
    List.getLastD_concat, hlast]
  exact lt_irrefl _

variable {c : ToolpathParams α}

theorem Finishes.progresses (h : c.Finishes) (hpass : Scalar.zero < c.passDepth) :
    c.Progresses := by
  intro hflat pass hmem
  have hpasses : c.passes = schedule c.passDepth c.bottomZ c.topZ := if_neg (by simp [hflat])
  rw [Finishes, hpasses] at h
  rw [hpasses] at hmem
  exact next_lt_of_finishes hpass h pass hmem

omit [SteppingScalar α] in
theorem Finishes.passes_ne_nil (h : c.Finishes) (hdeep : c.bottomZ < c.topZ) : c.passes ≠ [] := by
  intro hnone
  rw [Finishes, hnone] at h
  exact h hdeep

/-- No pass ends above the depth that it starts from. -/
theorem not_lt_next_of_mem_passes (hflat : c.usePathZ = false) (hpass : Scalar.zero < c.passDepth)
    {pass : Pass α} (h : pass ∈ c.passes) : ¬ pass.finished < pass.next := by
  have hpasses : c.passes = schedule c.passDepth c.bottomZ c.topZ := if_neg (by simp [hflat])
  rw [hpasses] at h
  obtain ⟨hbottom, heq⟩ := of_mem_passesFrom h
  rw [heq]
  exact not_lt_passFrom_next hpass hbottom

end ToolpathParams

end WireErosion
