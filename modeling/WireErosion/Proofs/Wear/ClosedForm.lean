import Mathlib.Analysis.Real.Sqrt
import WireErosion.Proofs.Residue.Frame
import WireErosion.Proofs.Toolpath.Entry
import WireErosion.Proofs.Wear.Position

/-!
# The worn depth in closed form

The wear along a block is followed by a state with three numbers that depend on each other.  What
comes out does not: after some lines the commanded depth is the depth that the block authored last,
less the wear on the way so far (`wearFrom_state`).  The way is that of the known positions, so a
move counts only once both axes are known before and after it.

A block that authors no rise is therefore put at depths that do not rise either, since the way only
gets longer (`applyWear_closed`).
-/

namespace WireErosion

open scoped Exact

/-! ## Authored depths -/

/-- The depths that some lines name, in order. -/
def authoredDepths {α : Type} : Program α → List α
  | [] => []
  | .comment _ :: ls => authoredDepths ls
  | .move m :: ls => m.z.toList ++ authoredDepths ls

/-- The depth that some lines name last, or `z` if they name none. -/
def lastAuthored {α : Type} (z : α) (ls : Program α) : α := (authoredDepths ls).getLastD z

theorem lastAuthored_move {α : Type} (z : α) (m : Move α) (ls : Program α) :
    lastAuthored z (.move m :: ls) = lastAuthored (m.z.getD z) ls := by
  rw [lastAuthored, authoredDepths]
  cases m.z with
  | none => rfl
  | some v => exact List.getLastD_cons

/-! ## The way in the plane -/

/-- The length in the plane of the way along some lines, where `a` is the position before them. -/
noncomputable def wayFrom (a : Modal ℝ) : Program ℝ → ℝ
  | [] => 0
  | .comment _ :: ls => wayFrom a ls
  | .move m :: ls => a.distance (a.after m) + wayFrom (a.after m) ls

/-- The distance that the wear is charged for. -/
theorem travelled_eq (m : Move ℝ) (a : Modal ℝ) :
    travelled m a (a.after m) = a.distance (a.after m) := by
  cases hxy : m.hasXY with
  | true =>
      obtain ⟨x, y⟩ := a
      obtain ⟨x', y'⟩ := Modal.after (x, y) m
      cases x <;> cases y <;> cases x' <;> cases y' <;>
        simp only [travelled, hxy, Modal.distance, Exact.zero_eq, Exact.distance_eq]
  | false =>
      rw [Modal.after_of_not_hasXY hxy, Modal.distance_self]
      simp only [travelled, hxy, Exact.zero_eq]

/-! ## The state -/

section

variable {ratio : ℝ}

/-- One move: the depth asked for is the one it authors, and the wear is that of its way. -/
theorem WearState.step_eq (ratio : ℝ) (s : WearState ℝ) (m : Move ℝ) :
    (s.step ratio m).1 = ⟨s.position.after m,
      s.depth + (m.z.getD s.asked - s.asked) - ratio * s.position.distance (s.position.after m),
      m.z.getD s.asked⟩ := by
  simp only [WearState.step, travelled_eq, WearState.mk.injEq, true_and]
  constructor <;> ring

/-- The state after some lines. -/
theorem wearFrom_state : ∀ (ls : Program ℝ) (s : WearState ℝ),
    (wearFrom ratio s ls).1 = ⟨positionAfter s.position ls,
      s.depth + (lastAuthored s.asked ls - s.asked) - ratio * wayFrom s.position ls,
      lastAuthored s.asked ls⟩
  | [], s => by
      simp [wearFrom, positionAfter, lastAuthored, authoredDepths, wayFrom]
  | .comment _ :: ls, s => wearFrom_state ls s
  | .move m :: ls, s => by
      change (wearFrom ratio (s.step ratio m).1 ls).1 = _
      rw [wearFrom_state ls, WearState.step_eq, lastAuthored_move, positionAfter, wayFrom]
      simp only [WearState.mk.injEq, true_and, and_true]
      ring

/-- The commanded depth after some lines, of a block that starts at the depth of one pass. -/
theorem depth_wearFrom (passDepth : ℝ) (ls : Program ℝ) :
    (wearFrom ratio ⟨(none, none), -passDepth, -passDepth⟩ ls).1.depth
      = lastAuthored (-passDepth) ls - ratio * wayFrom (none, none) ls := by
  rw [wearFrom_state]
  ring

/-! ## The lines -/

theorem length_wearFrom : ∀ (s : WearState ℝ) (ls : Program ℝ),
    (wearFrom ratio s ls).2.length = ls.length
  | _, [] => rfl
  | s, .comment _ :: ls => congrArg (· + 1) (length_wearFrom s ls)
  | s, .move m :: ls => congrArg (· + 1) (length_wearFrom (s.step ratio m).1 ls)

theorem wearFrom_comment_at (s : WearState ℝ) (pre : Program ℝ) (t : String) (post : Program ℝ) :
    (wearFrom ratio s (pre ++ Line.comment t :: post)).2[pre.length]? = some (.comment t) := by
  rw [wearFrom_append, List.getElem?_append_right (length_wearFrom s pre).le, length_wearFrom,
    Nat.sub_self]
  rfl

/-- A move is put at the depth of the state after it. -/
theorem wearFrom_move_at (s : WearState ℝ) (pre : Program ℝ) (m : Move ℝ) (post : Program ℝ) :
    (wearFrom ratio s (pre ++ Line.move m :: post)).2[pre.length]?
      = some (.move { m with z := some (wearFrom ratio s (pre ++ [Line.move m])).1.depth }) := by
  rw [wearFrom_append, List.getElem?_append_right (length_wearFrom s pre).le, length_wearFrom,
    Nat.sub_self, wearFrom_append]
  rfl

/-- The depth after some lines is the last one that they are put at. -/
theorem lastAuthored_wearFrom : ∀ (ls : Program ℝ) (s : WearState ℝ),
    lastAuthored s.depth (wearFrom ratio s ls).2 = (wearFrom ratio s ls).1.depth
  | [], _ => rfl
  | .comment _ :: ls, s => lastAuthored_wearFrom ls s
  | .move m :: ls, s => by
      rw [wearFrom]
      dsimp only
      rw [lastAuthored_move]
      exact lastAuthored_wearFrom ls (s.step ratio m).1

/-- If the authored depths go down then so do the depths that a block is put at, and the commanded
depth never rises above the authored one. -/
theorem pairwise_wearFrom (hratio : 0 ≤ ratio) : ∀ (ls : Program ℝ) (s : WearState ℝ),
    (s.asked :: authoredDepths ls).Pairwise (· ≥ ·) →
    (s.depth :: authoredDepths (wearFrom ratio s ls).2).Pairwise (· ≥ ·)
  | [], _, _ => List.pairwise_singleton _ _
  | .comment _ :: ls, s, h => pairwise_wearFrom hratio ls s h
  | .move m :: ls, s, h => by
      have hstep := WearState.step_eq ratio s m
      have hwear : 0 ≤ ratio * s.position.distance (s.position.after m) :=
        mul_nonneg hratio (Modal.distance_nonneg _ _)
      -- What the move authors is below what was authored before, and it comes first of the rest.
      have hdown : m.z.getD s.asked ≤ s.asked ∧
          (m.z.getD s.asked :: authoredDepths ls).Pairwise (· ≥ ·) := by
        rw [authoredDepths] at h
        cases hz : m.z with
        | none =>
            rw [hz] at h
            exact ⟨le_rfl, h⟩
        | some z =>
            rw [hz] at h
            obtain ⟨hfirst, hrest⟩ := List.pairwise_cons.mp h
            exact ⟨hfirst z (List.mem_cons_self ..), hrest⟩
      have hdepth : (s.step ratio m).1.depth ≤ s.depth := by
        rw [hstep]
        dsimp only
        linarith [hdown.1]
      have hasked : (s.step ratio m).1.asked = m.z.getD s.asked := by rw [hstep]
      have ih := pairwise_wearFrom hratio ls (s.step ratio m).1 (by rw [hasked]; exact hdown.2)
      have hworn : authoredDepths (wearFrom ratio s (.move m :: ls)).2
          = (s.step ratio m).1.depth :: authoredDepths (wearFrom ratio (s.step ratio m).1 ls).2 :=
        rfl
      rw [hworn, List.pairwise_cons]
      refine ⟨fun z hz => ?_, ih⟩
      rcases List.mem_cons.mp hz with rfl | hz
      · exact hdepth
      · exact le_trans ((List.pairwise_cons.mp ih).1 z hz) hdepth

end

/-- Wear keeps the comments of a block and all of its moves but for their depths.  Each move is put
at the depth that was authored last, which is that of one pass if none was, less the wear on the way
so far.  If no authored depth is above the one before it then no worn depth is. -/
theorem applyWear_closed (ratio passDepth : ℝ) (ls : Program ℝ) :
    (applyWear ratio passDepth ls).lines.length = ls.length ∧
    (∀ (pre : Program ℝ) (t : String) (post : Program ℝ), ls = pre ++ Line.comment t :: post →
      (applyWear ratio passDepth ls).lines[pre.length]? = some (.comment t)) ∧
    (∀ (pre : Program ℝ) (m : Move ℝ) (post : Program ℝ), ls = pre ++ Line.move m :: post →
      (applyWear ratio passDepth ls).lines[pre.length]? = some (.move { m with
        z := some (lastAuthored (-passDepth) (pre ++ [Line.move m])
          - ratio * wayFrom (none, none) (pre ++ [Line.move m])) })) ∧
    (applyWear ratio passDepth ls).lastZ
      = some (lastAuthored (-passDepth) ls - ratio * wayFrom (none, none) ls) ∧
    (applyWear ratio passDepth ls).lastZ
      = some (lastAuthored (-passDepth) (applyWear ratio passDepth ls).lines) ∧
    (0 ≤ ratio → (-passDepth :: authoredDepths ls).Pairwise (· ≥ ·) →
      (-passDepth :: authoredDepths (applyWear ratio passDepth ls).lines).Pairwise (· ≥ ·)) := by
  refine ⟨length_wearFrom _ ls, ?_, ?_, ?_, ?_, fun hratio =>
    pairwise_wearFrom hratio ls ⟨(none, none), -passDepth, -passDepth⟩⟩
  · rintro pre t post rfl
    exact wearFrom_comment_at _ pre t post
  · rintro pre m post rfl
    rw [← depth_wearFrom]
    exact wearFrom_move_at _ pre m post
  · rw [← depth_wearFrom]
    rfl
  · exact congrArg some (lastAuthored_wearFrom ls ⟨(none, none), -passDepth, -passDepth⟩).symm

/-- A cut around a corner, whose second side is authored deeper before it is cut. -/
def corner : Program ℝ :=
  [.cut, .move (.linear (some 0) (some 0) none none none),
    .move (.linear (some 3) none (some (-2)) none none),
    .move (.linear none none (some (-3)) none none), .move (.linear none (some 2) none none none)]

/-- The depth around the corner is the authored one and the charge for both sides. -/
theorem corner_applyWear_closed :
    (0 : ℝ) ≤ 1 / 10 ∧ (-1 :: authoredDepths corner).Pairwise (· ≥ ·) ∧
      (applyWear (1 / 10) 1 corner).lines[2]?
        = some (.move (.linear (some 3) none (some (-23 / 10)) none none)) ∧
      (applyWear (1 / 10) 1 corner).lastZ = some (-7 / 2) ∧
      (-1 :: authoredDepths (applyWear (1 / 10) 1 corner).lines).Pairwise (· ≥ ·) := by
  have hratio : (0 : ℝ) ≤ 1 / 10 := by norm_num
  have hauthored : ((-1 : ℝ) :: authoredDepths corner).Pairwise (· ≥ ·) := by
    norm_num [corner, authoredDepths, Line.cut, Move.linear]
  obtain ⟨-, -, hmoves, hlast, -, hdown⟩ := applyWear_closed (1 / 10) 1 corner
  have hthree : √(9 : ℝ) = 3 := by
    rw [show (9 : ℝ) = 3 ^ 2 by norm_num, Real.sqrt_sq (by norm_num)]
  have htwo : √(4 : ℝ) = 2 := by
    rw [show (4 : ℝ) = 2 ^ 2 by norm_num, Real.sqrt_sq (by norm_num)]
  refine ⟨hratio, hauthored, ?_, ?_, hdown hratio hauthored⟩
  · refine
      (hmoves [Line.cut, Line.move (.linear (some 0) (some 0) none none none)] _ _ rfl).trans ?_
    norm_num [lastAuthored, authoredDepths, wayFrom, Modal.after, Modal.distance, Line.cut,
      Move.linear, hthree]
  · rw [hlast]
    norm_num [corner, lastAuthored, authoredDepths, wayFrom, Modal.after, Modal.distance, Line.cut,
      Move.linear, hthree, htwo]

end WireErosion
