import WireErosion.Proofs.Operation.Divisors
import WireErosion.Proofs.Operation.Faults
import WireErosion.Proofs.Operation.Rises
import WireErosion.Proofs.Toolpath.Progress
import WireErosion.Proofs.Wear.Charge

/-!
# Operations that are admitted run to the end

The constraints on an operation are looked at once, before anything is compiled, and the quotients
that rely on them are taken much later.  In exact arithmetic they are enough: an operation without
tabs that breaks none of them has a program, with or without compensation, whatever its paths and
its hooks are (`Operation.build_completes`).

* A pass depth is positive, so the passes come down to the final depth.  A V-carve may have its
  final depth anywhere, but it makes one pass only.
* A plunge feed is positive, and a ramp goes down, so both the feed and the least time of a ramp can
  be divided by.
* The distance of the points on a cut, and the grid that vertices are snapped to, are positive
  whatever the operation is.

All other loops go along a list, of vertices, words or lines.
-/

namespace WireErosion

namespace Operation

variable {op : Operation ℝ} {w : Workshop ℝ}

/-! ## Divisors -/

theorem passDepth_pos (hbroken : op.broken = []) : 0 < op.passDepth := by
  have hconstraint : Constraint.passDepthPositive ∈ op.type.constraints := by
    cases op.type <;> simp [OperationType.constraints]
  have hpass := breaks_eq_false hbroken hconstraint
  simpa [breaks] using hpass

theorem plungeFeed_pos (hbroken : op.broken = []) : 0 < op.plungeFeed w := by
  have hconstraint : Constraint.plungeRatePositive ∈ op.type.constraints := by
    cases op.type <;> simp [OperationType.constraints]
  have hbreaks := breaks_eq_false hbroken hconstraint
  have hplunge : 0 < op.plungeRate := by simpa [breaks] using hbreaks
  rw [plungeFeed]
  cases w.unit with
  | perMinute => exact hplunge
  | perSecond => exact mul_pos hplunge (by norm_num)

/-- The passes of an operation that does not carve come down to its final depth. -/
theorem finishes_of_accepted (hbroken : op.broken = []) (hflat : op.usesPathZ = false) :
    (op.toolpath w).Finishes := by
  obtain ⟨hpass, -, hdeep, -⟩ := toolpath_of_accepted hbroken hflat (w := w)
  exact ToolpathParams.finishes_of_pos hflat hpass hdeep

/-! ## The run -/

section

variable {r : ℝ → ℝ} {summary start finish : Program ℝ} {before after : Report ℝ (Program ℝ)}

theorem exists_result (hbroken : op.broken = []) (hround : IsRounding w.round r)
    (hsummary : IsSummary summary) (hbefore : before.outcome = .ok start)
    (hafter : after.outcome = .ok finish) (paths : List (CamPath ℝ)) :
    ∃ result, (op.build w summary before after paths).outcome = .ok result := by
  obtain ⟨body, hbody⟩ := ToolpathParams.exists_compile_of_feed (c := op.toolpath w)
    (fun _ => (plungeFeed_pos hbroken).ne') hround (op.prepare paths)
  have hassemble : (op.assemble w summary before after paths).outcome
      = .ok (summary ++ (start ++ body ++ finish)) := by
    rw [outcome_assemble hbefore hafter, hbody]
    rfl
  have hspacing : 0 < (op.wear w).segmentLength := by
    change (0 : ℝ) < defaultSegmentLength
    norm_num [defaultSegmentLength]
  obtain ⟨worn, hworn⟩ := Program.exists_compensate (w := op.wear w) hsummary
    (p := start ++ body ++ finish) fun b _ => (CutBlock.exists_compensate hspacing b).imp
      fun _ h => h.1
  have hprogram : ∃ p, (if w.compensates
      then (Program.compensate (op.wear w) (summary ++ (start ++ body ++ finish))).outcome
      else .ok (summary ++ (start ++ body ++ finish))) = .ok p := by
    split
    · exact ⟨worn, hworn⟩
    · exact ⟨_, rfl⟩
  obtain ⟨p, hp⟩ := hprogram
  obtain ⟨check, hcheck⟩ := exists_checkDepth_outcome defaultReported p
  refine ⟨⟨p, check⟩, ?_⟩
  rw [outcome_build, Fault.bind_eq_ok]
  exact ⟨_, hassemble, Program.toResult_eq_ok.mpr ⟨hp, hcheck⟩⟩

/-- In exact arithmetic an operation without tabs that breaks no constraint has a program.  Every
hook can be read, the passes come to an end, and no number is divided by zero: the grid is not zero,
and the program and the notices are the same whatever a quotient by zero is. -/
theorem build_completes (hbroken : op.broken = []) (htabs : w.tabs = none)
    (hround : IsRounding w.round r) (hsummary : IsSummary summary)
    (hbefore : before.outcome = .ok start) (hafter : after.outcome = .ok finish)
    (paths : List (CamPath ℝ)) :
    (∀ text : String, ∃ p, (Program.parse text).outcome = .ok p) ∧
    (∃ result, (op.build w summary before after paths).outcome = .ok result) ∧
    (op.usesPathZ = false → (op.toolpath w).Finishes) ∧
    (toInternal snapGrid : ℝ) ≠ 0 ∧
    ∀ other : ℝ → ℝ, @build ℝ (Exact.dividing other) op w summary before after paths
      = op.build w summary before after paths :=
  ⟨fun text => (Program.exists_parse text).imp fun _ h => h.1,
    exists_result hbroken hround hsummary hbefore hafter paths,
    finishes_of_accepted hbroken, snapGrid_ne_zero,
    fun other => build_dividing other op w (passDepth_pos hbroken).ne' htabs summary before after
      paths⟩

end

end Operation

/-- The operation of which nothing was said, with ramps. -/
noncomputable def rampedOperation : Operation ℝ := { Operation.plain with ramp := true }

/-- A job that compensates for wear and rounds to three decimal places. -/
noncomputable def roundingWorkshop : Workshop ℝ :=
  { exactWorkshop with round := Scalar.roundTo 3 }

/-- A ramped operation over a path and an empty one has a result. -/
theorem rampedOperation_build_completes :
    rampedOperation.broken = [] ∧
    (∀ text : String, ∃ p, (Program.parse text).outcome = .ok p) ∧
    (∃ result, (rampedOperation.build roundingWorkshop ratioSummary (.of [.blank]) (.of [])
      [groove, ⟨[], true⟩]).outcome = .ok result) ∧
    (rampedOperation.usesPathZ = false → (rampedOperation.toolpath roundingWorkshop).Finishes) ∧
    (toInternal snapGrid : ℝ) ≠ 0 ∧
    ∀ other : ℝ → ℝ,
      @Operation.build ℝ (Exact.dividing other) rampedOperation roundingWorkshop ratioSummary
          (.of [.blank]) (.of []) [groove, ⟨[], true⟩]
        = rampedOperation.build roundingWorkshop ratioSummary (.of [.blank]) (.of [])
          [groove, ⟨[], true⟩] := by
  have hbroken : rampedOperation.broken = [] := plain_broken
  exact ⟨hbroken, Operation.build_completes hbroken rfl (isRounding_roundTo 3)
    isSummary_ratioSummary rfl rfl [groove, ⟨[], true⟩]⟩

end WireErosion
