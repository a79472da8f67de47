import WireErosion.Proofs.Operation.Toolpath
import WireErosion.Proofs.Operation.Result
import WireErosion.Proofs.Path.Thinning

/-!
# When a compensated operation only goes down

An operation without tabs that breaks no constraint runs, and the depth check counts the rises of
its strokes (`Operation.exists_build`).  So it finds nothing exactly if every descent ends at or
below the depth before its last move and every cut starts at or below the end of its descent
(`Operation.build_descends_iff`).

That is not so for all operations.  The wear of a cut starts again at the depth of one pass below
zero, whatever the depth of the descent before it, and that descent goes down to where the cut
before it ended.  Two paths of which the first one wears the wire are enough
(`twoGrooves_build_rises`).
-/

namespace WireErosion

open scoped Exact

namespace Operation

variable {op : Operation ℝ} {w : Workshop ℝ}

/-! ## Operations that are accepted -/

theorem breaks_eq_false (hbroken : op.broken = []) {c : Constraint}
    (hc : c ∈ op.type.constraints) : op.breaks c = false := by
  rw [broken, List.filter_eq_nil_iff] at hbroken
  exact Bool.not_eq_true _ ▸ hbroken c hc

/-- What the toolpath of an operation that breaks no constraint is like. -/
theorem toolpath_of_accepted (hbroken : op.broken = []) (hflat : op.usesPathZ = false) :
    0 < (op.toolpath w).passDepth ∧ 0 < (op.toolpath w).descents.plungeFeed ∧
      (op.toolpath w).bottomZ < (op.toolpath w).topZ ∧
      (op.toolpath w).topZ ≤ (op.toolpath w).safeZ := by
  have hconstraints : ∀ c ∈ [Constraint.startBelowRapid, .passDepthPositive, .endBelowStart,
      .plungeRatePositive], c ∈ op.type.constraints := by
    intro c hc
    simp only [List.mem_cons, List.not_mem_nil, or_false] at hc
    unfold usesPathZ at hflat
    cases htype : op.type with
    | vCarve => simp [htype] at hflat
    | pocket => rcases hc with rfl | rfl | rfl | rfl <;> simp [OperationType.constraints]
    | outline => rcases hc with rfl | rfl | rfl | rfl <;> simp [OperationType.constraints]
    | inside => rcases hc with rfl | rfl | rfl | rfl <;> simp [OperationType.constraints]
    | outside => rcases hc with rfl | rfl | rfl | rfl <;> simp [OperationType.constraints]
  have hrapid := breaks_eq_false hbroken (hconstraints .startBelowRapid (by simp))
  have hpass := breaks_eq_false hbroken (hconstraints .passDepthPositive (by simp))
  have hend := breaks_eq_false hbroken (hconstraints .endBelowStart (by simp))
  have hplunge := breaks_eq_false hbroken (hconstraints .plungeRatePositive (by simp))
  simp only [breaks, decide_eq_false_iff_not, not_lt, not_le, Exact.zero_eq] at hrapid hpass
  simp only [breaks, decide_eq_false_iff_not, not_le, Exact.zero_eq] at hend hplunge
  refine ⟨hpass, ?_, hend, hrapid⟩
  change 0 < w.unit.toPerMinute op.plungeRate
  cases w.unit with
  | perMinute => exact hplunge
  | perSecond => exact mul_pos hplunge (by norm_num)

/-- The toolpath of an operation without tabs that breaks no constraint is a list of strokes. -/
theorem plain_toolpath (hbroken : op.broken = []) (hflat : op.usesPathZ = false)
    (htabs : w.tabs = none) : (op.toolpath w).Plain := by
  obtain ⟨hpass, hplunge, hend, hrapid⟩ := toolpath_of_accepted hbroken hflat (w := w)
  refine ⟨hflat, ?_, hpass, hplunge, hend, hrapid⟩
  simp [ToolpathParams.activeTabs, toolpath, htabs]

theorem wearRatio_pos (hbroken : op.broken = []) : 0 < op.wearRatio := by
  have hconstraint : Constraint.wearRatioPositive ∈ op.type.constraints := by
    cases op.type <;> simp [OperationType.constraints]
  have hratio := breaks_eq_false hbroken hconstraint
  simpa [breaks] using hratio

/-! ## The check of an operation -/

/-- A compensated operation without tabs runs, and the check counts the rises of its strokes. -/
theorem exists_build {summary : Program ℝ} (hbroken : op.broken = []) (hflat : op.usesPathZ = false)
    (htabs : w.tabs = none) (hcompensates : w.compensates = true)
    (hround : ∀ x, w.round x = .ok x) (hsummary : IsSummary summary) (paths : List (CamPath ℝ)) :
    ∃ result, (op.build w summary (.of []) (.of []) paths).outcome = .ok result ∧
      result.check.count = strokeRises (op.toolpath w).descents op.wearRatio op.passDepth none
        ((op.toolpath w).strokes (op.prepare paths)) := by
  have hspacing : 0 < (op.wear w).segmentLength := by
    change (0 : ℝ) < defaultSegmentLength
    norm_num [defaultSegmentLength]
  obtain ⟨moves, hcompile, hmoves⟩ := (plain_toolpath hbroken hflat htabs).exists_compile hround
    (w := op.wear w) (wearRatio_pos hbroken).le hspacing (op.prepare paths)
  have hregular : ∀ m ∈ moves, m.1.Regular ∧ CutBlock.compensate (op.wear w) m.1.cutBlock
      = .ok m.2 := by
    intro m hm
    obtain ⟨i, hi⟩ := List.mem_iff_getElem?.mp hm
    obtain ⟨s, -, hs⟩ := getElem?_of_forall₂ hmoves hi
    exact ⟨hs.regular, hs.compensate⟩
  obtain ⟨staged, hstaged, hcompensate⟩ := compensate_strokes (w := op.wear w)
    (.rapid none none (some op.rapidZ)) hsummary (fun m hm => (hregular m hm).1)
    fun m hm => (hregular m hm).2
  have hquiet : ∀ l ∈ summary ++ staged, l.kind ≠ .rapidToStart := by
    intro l hl
    rcases List.mem_append.mp hl with hl | hl
    · rcases hsummary.kind hl with h | h <;> rw [h] <;> simp
    · exact hstaged l hl
  have hassemble : (op.assemble w summary (.of []) (.of []) paths).outcome
      = .ok (summary ++ strokesLines (.rapid none none (some op.rapidZ)) (moves.map Prod.fst)) := by
    rw [outcome_assemble rfl rfl, hcompile]
    simp [Except.map, toolpath]
  obtain ⟨check, hcheck, hcount⟩ := exists_checkDepth defaultReported (summary ++ staged
    ++ placedLines (op.wear w).feeds (.rapid none none (some op.rapidZ)) none moves)
  refine ⟨⟨summary ++ staged ++ placedLines (op.wear w).feeds (.rapid none none (some op.rapidZ))
    none moves, check⟩, build_eq_ok hcompensates hassemble hcompensate hcheck,
    hcount.trans (bodyRises_placedLines _ hmoves hquiet)⟩

/-- The depth check finds nothing in a compensated operation without tabs exactly if all its strokes
descend. -/
theorem build_descends_iff {summary : Program ℝ} (hbroken : op.broken = [])
    (hflat : op.usesPathZ = false) (htabs : w.tabs = none) (hcompensates : w.compensates = true)
    (hround : ∀ x, w.round x = .ok x) (hsummary : IsSummary summary) (paths : List (CamPath ℝ)) :
    ∃ result, (op.build w summary (.of []) (.of []) paths).outcome = .ok result ∧
      (result.check.count = 0 ↔ Descends (op.toolpath w).descents op.wearRatio op.passDepth none
        ((op.toolpath w).strokes (op.prepare paths))) := by
  obtain ⟨result, hresult, hcount⟩ :=
    exists_build hbroken hflat htabs hcompensates hround hsummary paths
  refine ⟨result, hresult, ?_⟩
  rw [hcount]
  exact strokeRises_eq_zero

end Operation

/-! ## Grooves

The operation of which nothing was said cuts one millimetre deep, in one pass. -/

/-- A groove of three vertices. -/
noncomputable def groove : CamPath ℝ := ⟨[⟨0, 0, 0⟩, ⟨100000, 0, 0⟩, ⟨200000, 0, 0⟩], false⟩

/-- A job that compensates for wear and leaves numbers as they are. -/
noncomputable def exactWorkshop : Workshop ℝ := ⟨.perMinute, .ok, none, true, some 1000, some 10⟩

/-- A summary of nothing but the wear ratio. -/
def ratioSummary : Program ℝ := [.comment "; Wear Ratio:   0.01", .comment ";"]

theorem isSummary_ratioSummary : IsSummary ratioSummary :=
  ⟨[], "; Wear Ratio:   0.01", rfl, fun _ h => (List.not_mem_nil h).elim, by decide⟩

theorem plain_broken : (Operation.plain : Operation ℝ).broken = [] := by
  rw [Operation.broken, List.filter_eq_nil_iff]
  intro c hc
  have hconstraints : c ∈ [Constraint.startBelowRapid, .passDepthPositive, .endBelowStart,
      .stepOverInRange, .plungeRatePositive, .cutRatePositive, .wearRatioPositive] := hc
  simp only [List.mem_cons, List.not_mem_nil, or_false] at hconstraints
  rcases hconstraints with rfl | rfl | rfl | rfl | rfl | rfl | rfl <;>
    norm_num [Operation.breaks, Operation.plain]

/-- The vertices of the groove lie on the grid, and none is dropped. -/
theorem plain_prepare (n : Nat) :
    (Operation.plain : Operation ℝ).prepare (List.replicate n groove)
      = List.replicate n groove := by
  have hgrid : (toInternal snapGrid : ℝ) ≠ 0 := by
    norm_num [toInternal, snapGrid, internalScale]
  have hzero := CamPath.snapCoordinate_mul hgrid 0
  have hone := CamPath.snapCoordinate_mul hgrid 25400
  have htwo := CamPath.snapCoordinate_mul hgrid 50800
  have hone_eq : ((25400 : ℤ) : ℝ) * toInternal snapGrid = 100000 := by
    norm_num [toInternal, snapGrid, internalScale]
  have htwo_eq : ((50800 : ℤ) : ℝ) * toInternal snapGrid = 200000 := by
    norm_num [toInternal, snapGrid, internalScale]
  rw [Int.cast_zero, zero_mul] at hzero
  rw [hone_eq] at hone
  rw [htwo_eq] at htwo
  have hsnap : groove.snap (toInternal snapGrid) = groove := by
    simp [CamPath.snap, groove, CamPath.snapPoint, hzero, hone, htwo]
  have hlength : toInternal (Operation.plain : Operation ℝ).segmentLength ≤ Scalar.zero := by
    norm_num [toInternal, Operation.plain]
  rw [Operation.prepare, List.map_replicate, hsnap, CamPath.thin, if_pos hlength]

/-- The one stroke of the groove with an index. -/
noncomputable def grooveStroke (index : Nat) : Stroke :=
  ⟨.newPath index, ⟨0, 0, 0⟩, [⟨25.4, 0, 0⟩, ⟨50.8, 0, 0⟩], ⟨0, -1⟩⟩

theorem plain_plain :
    ((Operation.plain : Operation ℝ).toolpath exactWorkshop).Plain :=
  Operation.plain_toolpath plain_broken rfl rfl

theorem plain_strokesFrom (index : Nat) (paths : List (CamPath ℝ)) :
    ((Operation.plain : Operation ℝ).toolpath exactWorkshop).strokesFrom index (groove :: paths) =
      grooveStroke index ::
        ((Operation.plain : Operation ℝ).toolpath exactWorkshop).strokesFrom (index + 1) paths := by
  have hpass : passFrom ((Operation.plain : Operation ℝ).toolpath exactWorkshop).passDepth
      ((Operation.plain : Operation ℝ).toolpath exactWorkshop).bottomZ
      ((Operation.plain : Operation ℝ).toolpath exactWorkshop).topZ = ⟨0, -1⟩ := by
    norm_num [passFrom, Operation.toolpath, Operation.plain]
  obtain ⟨fuel, hpasses⟩ := plain_plain.passes_eq
  have hdone : passesFrom ((Operation.plain : Operation ℝ).toolpath exactWorkshop).passDepth
      ((Operation.plain : Operation ℝ).toolpath exactWorkshop).bottomZ fuel (-1) = [] := by
    cases fuel with
    | zero => rfl
    | succ fuel =>
        rw [passesFrom, if_neg]
        norm_num [Operation.toolpath, Operation.plain]
  rw [hpass, hdone] at hpasses
  have hconvert : ∀ x : ℝ,
      ((Operation.plain : Operation ℝ).toolpath exactWorkshop).convert ⟨x, 0, 0⟩
        = ⟨x * 25.4 / 100000, 0, 0⟩ := by
    intro x
    norm_num [ToolpathParams.convert, Operation.toolpath, Operation.plain, internalScale]
    ring
  rw [ToolpathParams.strokesFrom, hpasses]
  simp only [groove, ToolpathParams.passStrokes, List.map_cons, List.map_nil, hconvert,
    List.cons_append, List.nil_append, grooveStroke]
  norm_num

/-- One pass along a groove has no rise. -/
theorem plain_build_descends :
    ∃ result, ((Operation.plain : Operation ℝ).build exactWorkshop ratioSummary (.of []) (.of [])
        [groove]).outcome = .ok result ∧ result.check.count = 0 := by
  obtain ⟨result, hresult, hcount⟩ := Operation.build_descends_iff plain_broken rfl
    (w := exactWorkshop) rfl rfl (fun _ => rfl) isSummary_ratioSummary [groove]
  refine ⟨result, hresult, hcount.mpr ?_⟩
  have hprepare := plain_prepare 1
  rw [List.replicate_one] at hprepare
  rw [hprepare, ToolpathParams.strokes, plain_strokesFrom]
  refine ⟨?_, fun _ => ?_, trivial⟩
  · norm_num [Stroke.bottom, Stroke.approach, approachZ, grooveStroke, Operation.toolpath,
      Operation.plain]
  · norm_num [Stroke.bottom, grooveStroke, Operation.plain]

/-- The first of two grooves ends below the depth of one pass, and so does the descent to the second
one, whose cut starts above it. -/
theorem twoGrooves_build_rises :
    (Operation.plain : Operation ℝ).broken = [] ∧
      ∃ result, ((Operation.plain : Operation ℝ).build exactWorkshop ratioSummary (.of []) (.of [])
        [groove, groove]).outcome = .ok result ∧ result.check.count ≠ 0 := by
  refine ⟨plain_broken, ?_⟩
  obtain ⟨result, hresult, hcount⟩ := Operation.exists_build plain_broken rfl
    (w := exactWorkshop) rfl rfl (fun _ => rfl) isSummary_ratioSummary [groove, groove]
  refine ⟨result, hresult, ?_⟩
  have hprepare := plain_prepare 2
  rw [List.replicate_succ, List.replicate_one] at hprepare
  rw [hcount, hprepare, ToolpathParams.strokes, plain_strokesFrom, plain_strokesFrom, Ne,
    strokeRises_eq_zero]
  rintro ⟨-, -, -, hcut, -⟩
  have hbottom : ∀ z : ℝ, (grooveStroke 1).bottom (some z) = z := by
    simp [Stroke.bottom, grooveStroke]
  have hworn := hcut (by simp [grooveStroke])
  rw [hbottom] at hworn
  have hlength : (0 : ℝ) < CamPath.distance ⟨25.4, 0, 0⟩ ⟨50.8, 0, 0⟩ := by
    rw [CamPath.distance, Exact.distance_eq]
    exact Real.sqrt_pos.mpr (by norm_num)
  norm_num [grooveStroke, wornDepth, wayLength, Operation.plain] at hworn hlength
  linarith

end WireErosion
