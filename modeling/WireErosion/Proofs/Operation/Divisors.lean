import WireErosion.Operation.Run
import WireErosion.Proofs.Exact

/-!
# No division by zero

A quotient of real numbers by zero is zero, so a program over them does not show whether a number in
it was divided by zero.  `Exact.dividing other` are the real numbers with another quotient for a
zero divisor, and everything else as it is.

What an operation without tabs is built to does not depend on that quotient, if its pass depth is
not zero (`Operation.build_dividing`).  Each of the functions that it is built with has a lemma here
that says so, with the divisor that may not be zero as a hypothesis.  That of a ramp is its length,
and that of a subdivision is the length of the way, and both are compared before they divide.

One quotient is not seen in this way, since it is multiplied by its divisor: that by the grid that
vertices are snapped to (`snapGrid_ne_zero`).
-/

namespace WireErosion

/-- The real numbers, with `other a` as the quotient of `a` by zero. -/
@[reducible] noncomputable def Exact.dividing (other : ℝ → ℝ) : Scalar ℝ :=
  { (inferInstance : Scalar ℝ) with
    div := fun a b => if b = 0 then other a else Scalar.toDiv.div a b }

open Exact (dividing)

variable (other : ℝ → ℝ)

/-- A quotient that is checked is the same, since it is a fault at zero. -/
theorem quotient_dividing (a b : ℝ) :
    @Scalar.quotient ℝ (dividing other) a b = Scalar.quotient a b := by
  by_cases hb : b = 0
  · have hzero : (b == Scalar.zero) = true := decide_eq_true (hb.trans Exact.zero_eq.symm)
    exact (if_pos hzero).trans (if_pos hzero).symm
  · have hzero : ¬ (b == Scalar.zero) = true :=
      ne_true_of_eq_false (decide_eq_false (by rwa [Exact.zero_eq]))
    have hquotient : @Scalar.quotient ℝ (dividing other) a b = .ok (a / b) :=
      (if_neg hzero).trans (congrArg Except.ok (if_neg hb))
    rw [hquotient, Exact.quotient_eq hb]

/-! ## Paths -/

theorem internalScale_dividing : @internalScale ℝ (dividing other) = internalScale :=
  if_neg (by norm_num)

theorem toInternal_dividing : @toInternal ℝ (dividing other) = toInternal := by
  funext length
  exact congrArg (length * ·) (internalScale_dividing other)

theorem snapGrid_ne_zero : (toInternal snapGrid : ℝ) ≠ 0 := by
  norm_num [toInternal, snapGrid, internalScale]

namespace CamPath

theorem snap_dividing {grid : ℝ} (hgrid : grid ≠ 0) (p : CamPath ℝ) :
    @snap ℝ (dividing other) grid p = p.snap grid := by
  have hcoordinate : @snapCoordinate ℝ (dividing other) grid = snapCoordinate grid := by
    funext v
    exact congrArg (fun u : ℝ => Scalar.nearestWhole u * grid) (if_neg hgrid)
  have hpoint : @snapPoint ℝ (dividing other) grid = snapPoint grid := by
    funext q
    simp only [snapPoint, hcoordinate]
  simp only [snap, hpoint]

theorem thin_dividing : @thin ℝ (dividing other) = thin := by
  delta thin thinPoints thinAfter
  rfl

end CamPath

theorem Operation.prepare_dividing (op : Operation ℝ) (paths : List (CamPath ℝ)) :
    @prepare ℝ (dividing other) op paths = op.prepare paths := by
  unfold prepare
  rw [toInternal_dividing, CamPath.thin_dividing]
  refine List.map_congr_left fun p _ => ?_
  exact congrArg (CamPath.thin _) (CamPath.snap_dividing other snapGrid_ne_zero p)

/-! ## Descents -/

theorem rampWay_dividing : @rampWay ℝ (dividing other) = rampWay := by
  delta rampWay
  rfl

section

variable (fromZ toZ : ℝ) {total : ℝ} (htotal : total ≠ 0)

include htotal

theorem rampMoves_dividing : ∀ (travelled : ℝ) (a : Point ℝ) (ps : List (Point ℝ)),
    @rampMoves ℝ (dividing other) fromZ toZ total travelled a ps
      = rampMoves fromZ toZ total travelled a ps
  | _, _, [] => rfl
  | _, _, b :: rest => by
      refine congrArg₂ List.cons ?_ (rampMoves_dividing _ b rest)
      exact congrArg (fun part => planMove (.linear (some b.x) (some b.y)
        (some (fromZ + part * (toZ - fromZ))) none none)) (if_neg htotal)

theorem rampFrom_dividing (d : DescentParams ℝ) (time : ℝ) (a : Point ℝ) : ∀ ps : List (Point ℝ),
    @rampFrom ℝ (dividing other) d fromZ toZ total time a ps = rampFrom d fromZ toZ total time a ps
  | [] => rfl
  | b :: rest => by
      refine congrArg₂ List.cons ?_ (rampMoves_dividing other fromZ toZ htotal _ b rest)
      rw [quotient_dividing]
      refine congrArg (Except.map · _) ?_
      funext most
      exact congrArg (fun part => Line.move (.linear (some b.x) (some b.y)
        (some (fromZ + part * (toZ - fromZ))) (some (Scalar.min most d.cutFeed)) d.toolSpeed))
        (if_neg htotal)

end

/-- A ramp has a length that is not zero, or there is none. -/
theorem ramp?_dividing (d : DescentParams ℝ) (a : Point ℝ) (rest : List (Point ℝ))
    (fromZ toZ : ℝ) : @ramp? ℝ (dividing other) d a rest fromZ toZ = ramp? d a rest fromZ toZ := by
  unfold ramp?
  rw [quotient_dividing, rampWay_dividing]
  change (match Scalar.quotient (fromZ - toZ) d.plungeFeed with | _ => _) = _
  cases Scalar.quotient (fromZ - toZ) d.plungeFeed with
  | error f => rfl
  | ok time =>
      by_cases hshort : (rampWay (d.cutFeed * time) Scalar.zero a rest).2 ≤ Scalar.zero
      · exact (if_pos hshort).trans (if_pos hshort).symm
      · have htotal : (rampWay (d.cutFeed * time) Scalar.zero a rest).2 ≠ 0 := by
          rw [Exact.zero_eq] at hshort ⊢
          exact (not_le.mp hshort).ne'
        refine (if_neg hshort).trans (Eq.trans ?_ (if_neg hshort).symm)
        exact congrArg (fun ls => some (Except.ok Line.ramp :: ls))
          (rampFrom_dividing other fromZ toZ htotal d time a _)

/-! ## Toolpaths -/

namespace ToolpathParams

variable (c : ToolpathParams ℝ)

theorem entryLines_dividing : @entryLines ℝ (dividing other) c = c.entryLines := by
  unfold entryLines descent
  simp only [ramp?_dividing]

theorem runLines_dividing (tabTop next : ℝ) : ∀ (inside : Bool) (z : ℝ)
    (runs : List (List (Point ℝ))),
    @runLines ℝ (dividing other) c tabTop next inside z runs
      = c.runLines tabTop next inside z runs
  | _, _, [] => rfl
  | inside, z, [] :: runs => runLines_dividing tabTop next (!inside) z runs
  | inside, z, (a :: rest) :: runs => by
      unfold runLines
      rw [entryLines_dividing]
      simp only [runLines_dividing tabTop next _ _ runs]

theorem passLines_dividing (tabs : Option (Tabs ℝ)) (path : ReadyPath ℝ) (z : ℝ) (pass : Pass ℝ) :
    @passLines ℝ (dividing other) c tabs path z pass = c.passLines tabs path z pass := by
  unfold passLines
  simp only [runLines_dividing]
  rfl

theorem passesLines_dividing (tabs : Option (Tabs ℝ)) (path : ReadyPath ℝ) :
    ∀ (z : ℝ) (passes : List (Pass ℝ)),
      @passesLines ℝ (dividing other) c tabs path z passes = c.passesLines tabs path z passes
  | _, [] => rfl
  | z, pass :: passes => by
      unfold passesLines
      simp only [passLines_dividing, passesLines_dividing]

variable (hpass : c.passDepth ≠ 0)

include hpass

theorem passes_dividing : @passes ℝ (dividing other) c = c.passes := by
  have hmultiple : @passMultiple ℝ (dividing other) c.passDepth = passMultiple c.passDepth := by
    have hquotient : ∀ z, @HDiv.hDiv ℝ ℝ ℝ (@instHDiv ℝ (dividing other).toDiv) z c.passDepth
        = Scalar.toDiv.div z c.passDepth := fun z => if_neg hpass
    funext z
    unfold passMultiple
    rw [hquotient]
    rfl
  unfold passes schedule passBound
  rw [hmultiple]
  delta passesFrom
  rfl

theorem pathsLines_dividing : ∀ (index : Nat) (paths : List (CamPath ℝ)),
    @pathsLines ℝ (dividing other) c none index paths = c.pathsLines none index paths
  | _, [] => rfl
  | index, path :: paths => by
      unfold pathsLines pathLines
      simp only [passesLines_dividing, pathsLines_dividing, passes_dividing other c hpass]
      rfl

theorem compile_dividing (htabs : c.tabs = none) (paths : List (CamPath ℝ)) :
    @compile ℝ (dividing other) c paths = c.compile paths := by
  have hactive : c.activeTabs = none := by
    simp [activeTabs, htabs]
  have hactive' : @activeTabs ℝ (dividing other) c = none := hactive
  unfold compile plan
  rw [hactive', hactive, pathsLines_dividing other c hpass]

end ToolpathParams

/-! ## Wear -/

section

variable {spacing : ℝ} (hspacing : 0 < spacing)

include hspacing

/-- A way that is longer than the spacing has a length that is not zero. -/
theorem intermediateMoves_dividing (m : Move ℝ) (a b : Modal ℝ) :
    @intermediateMoves ℝ (dividing other) m a b spacing = intermediateMoves m a b spacing := by
  unfold intermediateMoves
  dsimp only
  rw [quotient_dividing]
  by_cases hshort : Scalar.hypot (axisStep a.1 b.1) (axisStep a.2 b.2) ≤ spacing
  · exact (if_pos hshort).trans (if_pos hshort).symm
  · have hlength : Scalar.hypot (axisStep a.1 b.1) (axisStep a.2 b.2) ≠ 0 :=
      (hspacing.trans (not_le.mp hshort)).ne'
    refine (if_neg hshort).trans (Eq.trans ?_ (if_neg hshort).symm)
    rw [Exact.quotient_eq hspacing.ne', Exact.quotient_eq hspacing.ne']
    refine congrArg (fun ms => Except.ok ms) (List.map_congr_left fun d _ => ?_)
    exact congrArg (fun part =>
      { m with x := axisAt part m.x a.1 b.1, y := axisAt part m.y a.2 b.2 }) (if_neg hlength)

theorem subdivideFrom_dividing : ∀ (p : Modal ℝ) (ls : List (Line ℝ)),
    @subdivideFrom ℝ (dividing other) spacing p ls = subdivideFrom spacing p ls
  | _, [] => rfl
  | p, .comment t :: ls => by
      unfold subdivideFrom
      rw [subdivideFrom_dividing p ls]
  | p, .move m :: ls => by
      unfold subdivideFrom
      simp only [subdivideFrom_dividing, intermediateMoves_dividing other hspacing]

end

theorem wearFrom_dividing : @wearFrom ℝ (dividing other) = wearFrom := by
  delta wearFrom
  rfl

theorem Program.compensate_dividing {w : WearParams ℝ} (hspacing : 0 < w.segmentLength)
    (p : Program ℝ) : @compensate ℝ (dividing other) w p = p.compensate w := by
  have hcuts : @CutBlock.compensate ℝ (dividing other) w = CutBlock.compensate w := by
    funext b
    unfold CutBlock.compensate subdivide applyWear
    rw [subdivideFrom_dividing other hspacing, wearFrom_dividing]
  unfold compensate
  rw [hcuts]

/-! ## Operations -/

theorem checkDepth_dividing : @checkDepth ℝ (dividing other) = checkDepth := by
  delta checkDepth risesFrom
  rfl

namespace Operation

variable (op : Operation ℝ) (w : Workshop ℝ)

theorem toolpath_dividing : @toolpath ℝ (dividing other) op w = op.toolpath w := by
  have hscale : (@toolpath ℝ (dividing other) op w).lengthScale = (op.toolpath w).lengthScale :=
    (congrArg (fun scale : ℝ => if scale = 0 then other Scalar.one else Scalar.one / scale)
      (internalScale_dividing other)).trans (if_neg (by norm_num [internalScale]))
  exact congrArg (fun scale => { op.toolpath w with lengthScale := scale }) hscale

/-- What an operation without tabs is built to does not depend on a quotient by zero. -/
theorem build_dividing (hpass : op.passDepth ≠ 0) (htabs : w.tabs = none) (summary : Program ℝ)
    (before after : Report ℝ (Program ℝ)) (paths : List (CamPath ℝ)) :
    @build ℝ (dividing other) op w summary before after paths
      = op.build w summary before after paths := by
  have hspacing : 0 < (op.wear w).segmentLength := by
    change (0 : ℝ) < defaultSegmentLength
    norm_num [defaultSegmentLength]
  have hcompensate : @Program.compensate ℝ (dividing other) (op.wear w)
      = Program.compensate (op.wear w) := funext (Program.compensate_dividing other hspacing)
  have hcompile : @ToolpathParams.compile ℝ (dividing other) (op.toolpath w) (op.prepare paths)
      = (op.toolpath w).compile (op.prepare paths) :=
    ToolpathParams.compile_dividing other _ hpass htabs _
  have hwear : @wear ℝ (dividing other) op w = op.wear w := rfl
  unfold build assemble Program.toResult
  rw [toolpath_dividing, prepare_dividing, hwear, hcompile, hcompensate, checkDepth_dividing]

end Operation

end WireErosion
